import SymCalc.CommandLine

/-!
# The program

Reads the arguments, the file named and the standard input, and writes what comes of them.
-/

namespace SymCalc.CommandLine

/-- Reads a stream to its end. -/
partial def readAll (stream : IO.FS.Stream) (read : Text) : IO Text := do
  let chunk ← stream.read 65536
  if chunk.isEmpty then return read else readAll stream (read ++ chunk)

/-- The contents of a file, if it can be opened. -/
def contentsOf (name : Text) : IO (Except OpenFault Text) := do
  match String.fromUTF8? name with
  | none => return .error .missing
  | some path =>
    try
      return .ok (← IO.FS.readBinFile path)
    catch _ => return .error .missing

/-- What a plan needs from outside: the contents of the file it names and the standard input. -/
def Plan.collect : Plan → IO (Except OpenFault Text × Text)
  | .say _ _ => return (.error .missing, "")
  | .demo _ => return (.error .missing, ← readAll (← IO.getStdin) "")
  | .run settings file => do
    let contents ← match file with
      | some name => contentsOf name
      | none => pure (.error .missing)
    if settings.interactive then return (contents, ← readAll (← IO.getStdin) "")
    else return (contents, "")

end SymCalc.CommandLine

/-- Runs the program with its arguments. -/
def main (args : List String) : IO UInt32 := do
  let plan := SymCalc.CommandLine.plan (args.map SymCalc.Text.ofString)
  let (contents, input) ← plan.collect
  let result := plan.perform (fun _ => contents) input
  (← IO.getStdout).write result.out
  (← IO.getStderr).write result.err
  return result.status.toUInt32
