import RunGrammar.Files.Basic

/-!
# A directory in memory

The simplest place for files is one directory without directories in it. Its
files are kept in ascending order of their names.

A path may lead to a file through steps that stay where they are. The directory
itself can be neither read nor written. Outside of it there is only the null
device, which is always empty and takes everything. Names and paths have a
greatest length, which is counted in bytes.
-/

namespace RunGrammar

/-- The files of a directory with their contents, ascending by name. -/
structure Directory where
  files : List (String × List UInt8) := []
deriving DecidableEq, Repr

namespace Directory

/-- What a path leads to. -/
inductive Target where
  | directory
  | file (name : String)
  /-- Something that would have to lie in a directory of this name. -/
  | inside (name : String)
  | nullDevice
  | outside
  /-- Nothing, since the path or one of its steps is longer than paths and names can be. -/
  | tooLong
deriving DecidableEq, Repr

/-- The most bytes that a name can have. -/
def nameLimit : Nat := 255

/-- The most bytes that a path can have. -/
def pathLimit : Nat := 4095

/-- Whether a step of a path has no name, or a single dot, and so does not lead anywhere else. -/
def stays (step : String) : Bool := step == "" || step == "."

/-- Follows a path that is given as its steps and does not start in the directory. -/
def targetFromTop (steps : List String) : Target :=
  if steps.filter (!stays ·) == ["dev", "null"] && steps.getLast? == some "null" then .nullDevice
  else .outside

/-- Follows a path. -/
def target (path : String) : Target :=
  let steps := path.splitOn "/"
  if pathLimit < path.utf8ByteSize || steps.any (nameLimit < ·.utf8ByteSize) then .tooLong
  else if path.startsWith "/" then targetFromTop steps
  else if path = "" || steps.contains ".." then .outside
  else
    match steps.dropWhile stays with
    | [] => .directory
    | [name] => .file name
    | name :: _ => .inside name

/-- The contents of a file of this name. -/
def find? (d : Directory) (name : String) : Option (List UInt8) := d.files.lookup name

/-- Puts a file in its place, instead of one with the same name if there is one. -/
def insert (name : String) (bytes : List UInt8) :
    List (String × List UInt8) → List (String × List UInt8)
  | [] => [(name, bytes)]
  | (other, old) :: rest =>
    if name < other then (name, bytes) :: (other, old) :: rest
    else if name = other then (name, bytes) :: rest
    else (other, old) :: insert name bytes rest

/-- Why there is nothing in a directory of this name: there are only files. -/
def faultInside (d : Directory) (name : String) : FileFault :=
  if (d.find? name).isSome then .notDirectory else .notFound

def read (d : Directory) (path : String) : Except FileFault (List UInt8) :=
  match target path with
  | .directory => .error .isDirectory
  | .file name => match d.find? name with
    | some bytes => .ok bytes
    | none => .error .notFound
  | .inside name => .error (d.faultInside name)
  | .nullDevice => .ok []
  | .outside => .error .notFound
  | .tooLong => .error .nameTooLong

def write (d : Directory) (path : String) (bytes : List UInt8) : Except FileFault Directory :=
  match target path with
  | .directory => .error .isDirectory
  | .file name => .ok ⟨insert name bytes d.files⟩
  | .inside name => .error (d.faultInside name)
  | .nullDevice => .ok d
  | .outside => .error .notFound
  | .tooLong => .error .nameTooLong

/-- Access to the files of a directory that is kept as the state. -/
def access : Files (StateM Directory) where
  read path := return (← get).read path
  write path bytes := do
    match (← get).write path bytes with
    | .ok d => set d; return .ok ()
    | .error fault => return .error fault

theorem lookup_insert (name : String) (bytes : List UInt8) (files : List (String × List UInt8)) :
    (insert name bytes files).lookup name = some bytes := by
  induction files with
  | nil => simp [insert]
  | cons file rest ih =>
    obtain ⟨other, old⟩ := file
    unfold insert
    split
    · simp
    · split
      · simp
      · rename_i different
        have skip : (name == other) = false := by simpa using different
        rw [List.lookup_cons, skip]
        exact ih

/-- What is written to a file is read back from it. -/
theorem read_of_write {d d' : Directory} {path name : String} {bytes : List UInt8}
    (leads : target path = .file name) (h : d.write path bytes = .ok d') :
    d'.read path = .ok bytes := by
  simp only [write, leads] at h
  obtain rfl := Except.ok.inj h
  simp only [read, leads, find?, lookup_insert]

end Directory

end RunGrammar
