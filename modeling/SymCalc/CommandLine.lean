import SymCalc.Folder
import SymCalc.Walkthrough

/-!
# The command line

Flags, the file to run and what comes of it. Flags come first, each with one hyphen or two; a
Boolean flag may carry a value after an equals sign, any other flag takes the next argument if
it carries none.
-/

namespace SymCalc.CommandLine

/-- What the flags ask for. -/
structure Options where
  /-- Show the outline of each statement. -/
  verbose : Bool := false
  /-- Hold a conversation after the file. -/
  interactive : Bool := false
  /-- Show the walkthrough. -/
  demo : Bool := false
  /-- The template for magnitudes. -/
  format : Text := "%v"
  /-- The prompt of a conversation. -/
  prompt : Text := ">> "
  deriving DecidableEq

/-- Why the flags cannot be used. -/
inductive FlagFault where
  /-- The usage was asked for. -/
  | help
  /-- An argument that is no flag. -/
  | badFlag (argument : Text)
  /-- A flag that does not exist. -/
  | undefined (name : Text)
  /-- A flag without its value. -/
  | needsValue (name : Text)
  /-- A Boolean flag with a value that is no Boolean. -/
  | notBoolean (name value : Text)
  deriving DecidableEq

/-- What is said before the usage. -/
def FlagFault.message : FlagFault → Text
  | help => ""
  | badFlag argument => "bad flag syntax: " ++ argument ++ "\n"
  | undefined name => "flag provided but not defined: -" ++ name ++ "\n"
  | needsValue name => "flag needs an argument: -" ++ name ++ "\n"
  | notBoolean name value =>
    "invalid boolean value " ++ Text.quote value ++ " for -" ++ name ++ ": parse error\n"

/-- The usage. -/
def usage : String :=
  "usage: lal [-h|--help] [-v] [-i] [-demo] [input_file]\n" ++
  "Flags:\n" ++
  "  -demo\n" ++
  "    \trun the demo; press return to step through it\n" ++
  "  -format string\n" ++
  "    \tfmt verb for printing magnitudes (default \"%v\")\n" ++
  "  -i\tinteractive: run the REPL, after running file if one is given\n" ++
  "  -prompt string\n" ++
  "    \tinteractive prompt (default \">> \")\n" ++
  "  -v\tverbose: print the parse tree of each statement\n"

/-- The words for true. -/
def trueWords : List Text := ["1", "t", "T", "true", "TRUE", "True"]

/-- The words for false. -/
def falseWords : List Text := ["0", "f", "F", "false", "FALSE", "False"]

/-- The Boolean that a word stands for. -/
def boolean? (word : Text) : Option Bool :=
  if trueWords.any (· = word) then some true
  else if falseWords.any (· = word) then some false
  else none

/-- The flags that there are. -/
inductive FlagKind where
  /-- Show the outline of each statement. -/
  | verbose
  /-- Hold a conversation after the file. -/
  | interactive
  /-- Show the walkthrough. -/
  | demo
  /-- Set the template for magnitudes. -/
  | format
  /-- Set the prompt of a conversation. -/
  | prompt
  /-- Ask for the usage. -/
  | help
  deriving DecidableEq, Repr

/-- The names of the flags. -/
def flagNames : List (Text × FlagKind) := [
  ("v", .verbose), ("i", .interactive), ("demo", .demo), ("format", .format), ("prompt", .prompt),
  ("h", .help), ("help", .help)]

/-- The flag with a name. -/
def FlagKind.ofName? (name : Text) : Option FlagKind :=
  (flagNames.find? (·.1 = name)).map (·.2)

/-- A flag with the value that it carries. -/
structure Flag where
  /-- The name without hyphens. -/
  name : Text
  /-- The value after the equals sign. -/
  value : Option Text
  deriving DecidableEq

/-- What an argument is. -/
inductive Argument where
  /-- A flag. -/
  | flag (flag : Flag)
  /-- The mark that ends the flags. -/
  | endMark
  /-- Anything else. -/
  | plain
  /-- A hyphen without the name of a flag. -/
  | bad
  deriving DecidableEq

/-- The byte that flags start with. -/
def hyphen : UInt8 := 0x2D

/-- The byte between a flag and its value. -/
def equalsSign : UInt8 := 0x3D

/-- Splits the name of a flag from its value at the first equals sign. -/
def splitFlag (text : List UInt8) : Flag :=
  let name := Text.ofBytes (text.takeWhile (· ≠ equalsSign))
  match text.dropWhile (· ≠ equalsSign) with
  | [] => ⟨name, none⟩
  | _ :: value => ⟨name, some (Text.ofBytes value)⟩

/-- The flag after its hyphens, if there is one. -/
def classifyName (name : List UInt8) : Argument :=
  match name with
  | [] => .bad
  | b :: _ => if b = hyphen || b = equalsSign then .bad else .flag (splitFlag name)

/-- Tells what an argument is. -/
def classify (argument : Text) : Argument :=
  match argument.bytes with
  | a :: b :: name =>
    if a ≠ hyphen then .plain
    else if b ≠ hyphen then classifyName (b :: name)
    else if name.isEmpty then .endMark
    else classifyName name
  | _ => .plain

/-- Sets a Boolean flag, which is true unless it carries a value. -/
def setBoolean (flag : Flag) (set : Bool → Options) : Except FlagFault Options :=
  match flag.value with
  | none => .ok (set true)
  | some value =>
    match boolean? value with
    | some b => .ok (set b)
    | none => .error (.notBoolean flag.name value)

/-- Reads flags up to the first other argument. -/
def readFlags (options : Options) : List Text → Except FlagFault (Options × List Text)
  | [] => .ok (options, [])
  | argument :: rest =>
    match classify argument with
    | .plain => .ok (options, argument :: rest)
    | .endMark => .ok (options, rest)
    | .bad => .error (.badFlag argument)
    | .flag flag =>
      match FlagKind.ofName? flag.name with
      | none => .error (.undefined flag.name)
      | some .help => .error .help
      | some .verbose => do
        readFlags (← setBoolean flag fun b => { options with verbose := b }) rest
      | some .interactive => do
        readFlags (← setBoolean flag fun b => { options with interactive := b }) rest
      | some .demo => do
        readFlags (← setBoolean flag fun b => { options with demo := b }) rest
      | some .format =>
        match flag.value, rest with
        | some value, rest => readFlags { options with format := value } rest
        | none, value :: rest => readFlags { options with format := value } rest
        | none, [] => .error (.needsValue flag.name)
      | some .prompt =>
        match flag.value, rest with
        | some value, rest => readFlags { options with prompt := value } rest
        | none, value :: rest => readFlags { options with prompt := value } rest
        | none, [] => .error (.needsValue flag.name)

/-- The settings that the flags ask for. -/
def Options.settings (o : Options) : Settings :=
  ({ template := o.format, prompt := o.prompt, interactive := o.interactive } :
    Settings).setVerbose o.verbose

/-- What the arguments ask for. -/
inductive Plan where
  /-- To say something and end with a status. -/
  | say (message : Text) (status : Nat)
  /-- To show the walkthrough. -/
  | demo (settings : Settings)
  /-- To run a file, if one is named, and then to hold a conversation, if it is wanted. -/
  | run (settings : Settings) (file : Option Text)

/-- Tells what the arguments ask for. An empty file name names none. -/
def plan (args : List Text) : Plan :=
  match readFlags {} args with
  | .error fault => .say (fault.message ++ usage) (if fault = .help then 0 else 2)
  | .ok (options, rest) =>
    let settings := options.settings
    if options.demo then .demo settings
    else
      match rest with
      | [] =>
        if options.interactive then .run settings none
        else .say "lal: no input file; use -h for help\n" 2
      | [name] => .run settings (if name.isEmpty then none else some name)
      | _ => .say usage 2

/-- What a command comes to. -/
structure Result where
  /-- The exit status. -/
  status : Nat
  /-- What was written to the output. -/
  out : Text
  /-- What was written to the error output. -/
  err : Text
  deriving DecidableEq

/-- Shows the walkthrough, with the lines of the user, and runs what it delivers. -/
def runDemo (settings : Settings) (input : Text) : Result :=
  let g := Walkthrough.guide (some input)
  let complaint : Text := if g.tooLong then "lal: " ++ Walkthrough.tooLongMessage ++ "\n" else ""
  let p : Progress Float := converse settings (g.sent.readLines.1.map some) {}
  ⟨0, g.echo ++ p.out, complaint ++ p.err⟩

/-- Holds a conversation after a file was run. -/
def continueWith (settings : Settings) (input : Text) (env : Env Float) (out err : Text) : Result :=
  let p := converse settings (input.readLines.1.map some) env
  ⟨0, out ++ p.out, err ++ p.err⟩

/-- Runs a file, whose contents are given if it can be opened, and holds a conversation if it is
wanted. -/
def runNamed (settings : Settings) (name : Text) (contents : Except OpenFault Text)
    (input : Text) : Result :=
  match contents with
  | .error fault => ⟨2, "", "lal: open " ++ name ++ ": " ++ fault.message ++ "\n"⟩
  | .ok text =>
    let r : FileReport Float := runFile settings name text
    if !settings.interactive then ⟨if r.ok then 0 else 1, r.out, r.err⟩
    else
      match r.env with
      | some env => continueWith settings input env r.out r.err
      | none =>
        let notice : Text := "interactive mode running with an empty environment\n"
        continueWith settings input {} (r.out ++ notice) r.err

/-- Carries out what the arguments ask for, given how files are opened and the input. -/
def Plan.perform (p : Plan) (openFile : Text → Except OpenFault Text) (input : Text) : Result :=
  match p with
  | .say message status => ⟨status, "", message⟩
  | .demo settings => runDemo settings input
  | .run settings none =>
    if settings.interactive then continueWith settings input {} "" "" else ⟨0, "", ""⟩
  | .run settings (some name) => runNamed settings name (openFile name) input

end SymCalc.CommandLine
