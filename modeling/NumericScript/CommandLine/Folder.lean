/-! # Files in a folder

A folder holds files that are named by their paths in it.  Here is what a path leads to that
starts in the folder: the components of the path are followed one after the other.

* `step_folder_of_isIdle`: empty components and dots change nothing.
* `step_file`: nothing follows after a file. -/

namespace NumericScript.CommandLine

/-- Why a file cannot be read. -/
inductive FileError where
  | notFound
  /-- A component of the path that is no folder is followed by others. -/
  | notFolder
  /-- The path leads to a folder. -/
  | isFolder
  | nameTooLong
  /-- The octets of the file are no text. -/
  | notText
  | other (text : String)
deriving DecidableEq, Repr

namespace FileError

/-- The errors that the operating system has numbers for. -/
def ofNumber? : Nat → Option FileError
  | 2 => some notFound
  | 20 => some notFolder
  | 21 => some isFolder
  | 36 => some nameTooLong
  | _ => none

/-- The wording of an error. -/
def message : FileError → String
  | notFound => "No such file or directory (os error 2)"
  | notFolder => "Not a directory (os error 20)"
  | isFolder => "Is a directory (os error 21)"
  | nameTooLong => "File name too long (os error 36)"
  | notText => "stream did not contain valid UTF-8"
  | other text => text

end FileError

/-- A file: its path in the folder, by components, and its text. -/
structure File where
  path : List String
  text : String
deriving DecidableEq, Repr

/-- Files by their paths. -/
abbrev Folder := List File

/-- What a path leads to. -/
inductive Target where
  | file (text : String)
  /-- A folder inside the one where the path starts. -/
  | folder (path : List String)
  /-- A folder around it, of which nothing more is known. -/
  | outside
deriving DecidableEq, Repr

namespace Folder

/-- The components of a path. -/
def components (path : String) : List String := (path.toList.splitOn '/').map String.ofList

/-- Whether a component leads nowhere else. -/
def isIdle (name : String) : Bool := name = "" || name = "."

/-- The folder that holds the given files. -/
def ofFiles (files : List (String × String)) : Folder :=
  files.map fun (path, text) => ⟨(components path).filter fun name => !isIdle name, text⟩

/-- The greatest number of octets in the name of a file. -/
def nameLimit : Nat := 255

/-- The greatest number of octets in a path. -/
def pathLimit : Nat := 4095

/-- What a name leads to in the folder at `path`. -/
def enter (f : Folder) (path : List String) (name : String) : Except FileError Target :=
  let path := path ++ [name]
  if nameLimit < name.utf8ByteSize then .error .nameTooLong
  else match f.find? fun file => file.path = path with
    | some file => .ok (.file file.text)
    | none =>
      if f.any fun file => path.isPrefixOf file.path then .ok (.folder path) else .error .notFound

/-- What a component of a path leads to. -/
def step (f : Folder) (start : Target) (name : String) : Except FileError Target :=
  match start with
  | .file _ => .error .notFolder
  | .folder path =>
    if isIdle name then .ok start
    else if name = ".." then .ok (if path.isEmpty then .outside else .folder path.dropLast)
    else f.enter path name
  | .outside =>
    if isIdle name || name = ".." then .ok .outside
    else .error (if nameLimit < name.utf8ByteSize then .nameTooLong else .notFound)

theorem step_folder_of_isIdle (f : Folder) (path : List String) {name : String}
    (h : isIdle name = true) : f.step (.folder path) name = .ok (.folder path) := by
  simp [step, h]

theorem step_file (f : Folder) (text name : String) :
    f.step (.file text) name = .error .notFolder := rfl

/-- Where a path starts: one that begins with a slash does not start in the folder. -/
def start (path : String) : Target := if path.startsWith "/" then .outside else .folder []

/-- The file outside that is always empty. -/
def nullDevice : String := "/dev/null"

/-- The text of the file that a path leads to. -/
def read (f : Folder) (path : String) : Except FileError String := do
  if path.isEmpty then throw .notFound
  if path = nullDevice then return ""
  if pathLimit < path.utf8ByteSize then throw .nameTooLong
  match (← (components path).foldlM f.step (start path)) with
  | .file text => return text
  | _ => throw .isFolder

end Folder

end NumericScript.CommandLine
