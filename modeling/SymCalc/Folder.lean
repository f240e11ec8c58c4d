import SymCalc.Text.Basic

/-!
# Folders

A command opens files in the folder it is run in, by paths. A path is a list of names between
slashes, which is followed name by name; a folder can be opened too, but holds no text.
Main statement: a file is opened by its plain name.
-/

namespace SymCalc

/-- Why a file cannot be opened. -/
inductive OpenFault where
  /-- There is no such file. -/
  | missing
  /-- A file stands where the path needs a folder. -/
  | notFolder
  /-- The path holds a zero byte. -/
  | badName
  /-- The path or a name in it is too long. -/
  | tooLong
  deriving DecidableEq, Repr

/-- The wording of why a file cannot be opened. -/
def OpenFault.message : OpenFault → String
  | missing => "no such file or directory"
  | notFolder => "not a directory"
  | badName => "invalid argument"
  | tooLong => "file name too long"

/-- A folder with files only; what lies around it is not known. -/
structure Folder where
  /-- The files, by name. -/
  files : List (Text × Text)

namespace Folder

/-- Where a path has led so far. -/
inductive Place where
  /-- To the folder itself. -/
  | here
  /-- To some other folder. -/
  | elsewhere
  /-- To a file. -/
  | file (contents : Text)

/-- The byte between the names of a path. -/
def slash : UInt8 := 0x2F

/-- The longest name. -/
def nameLimit : Nat := 255

/-- The length that a path must stay below. -/
def pathLimit : Nat := 4096

/-- The contents of the file with a name. -/
def find? (f : Folder) (name : Text) : Option Text := (f.files.find? (·.1 = name)).map (·.2)

/-- Follows a path by one name. One point stays where it is, two points lead out. -/
def step (f : Folder) (place : Place) (name : List UInt8) : Except OpenFault Place :=
  let name := Text.ofBytes name
  match place with
  | .file _ => .error .notFolder
  | _ =>
    if name.isEmpty || name = "." then .ok place
    else if name = ".." then .ok .elsewhere
    else if nameLimit < name.size then .error .tooLong
    else
      match place, f.find? name with
      | .here, some contents => .ok (.file contents)
      | _, _ => .error .missing

/-- Where a path leads to. It starts in the folder, or with a slash at the root; the empty path
leads nowhere. -/
def follow (f : Folder) (path : Text) : Except OpenFault Place :=
  if path.isEmpty then .error .missing
  else if path.bytes.contains 0 then .error .badName
  else if pathLimit ≤ path.size then .error .tooLong
  else
    let start : Place := if path.bytes.head? = some slash then .elsewhere else .here
    (Text.splitAt slash path.bytes).foldlM f.step start

/-- The text that a path leads to; a folder holds none. -/
def open? (f : Folder) (path : Text) : Except OpenFault Text :=
  (f.follow path).map fun
    | .file contents => contents
    | _ => ""

/-- Whether a name can be the name of a file: it is neither empty nor made of one or two points,
it is not too long, and it holds no slash and no zero byte. -/
def IsPlain (name : Text) : Prop :=
  name.isEmpty = false ∧ name ≠ "." ∧ name ≠ ".." ∧ name.size ≤ nameLimit ∧
    slash ∉ name.bytes ∧ 0 ∉ name.bytes

/-- A file is opened by its plain name. -/
theorem open?_of_find? {f : Folder} {name contents : Text} (h : IsPlain name)
    (found : f.find? name = some contents) : f.open? name = .ok contents := by
  obtain ⟨nonempty, onePoint, twoPoints, short, noSlash, noZero⟩ := h
  have below : ¬ pathLimit ≤ name.size := by
    simp only [nameLimit, pathLimit] at *
    omega
  have start : name.bytes.head? ≠ some slash := fun e => noSlash (List.mem_of_head? e)
  have whole : Text.ofBytes name.bytes = name := Text.bytes_inj.mp (Text.bytes_ofBytes _)
  have long : ¬ nameLimit < name.size := Nat.not_lt.mpr short
  simp [open?, follow, step, noZero, below, start, Text.splitAt_of_not_mem noSlash, whole,
    nonempty, onePoint, twoPoints, long, found, Except.map]

end Folder

end SymCalc
