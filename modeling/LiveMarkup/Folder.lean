import LiveMarkup.Text

/-!
# Folders

Files in a folder and in folders inside it, and where a path leads that starts in the folder: step
by step over its names, of which each but the last has to be a folder. Of what lies outside the
folder nothing is known but that it is there.
-/

namespace LiveMarkup

/-- Why a file cannot be read. -/
inductive FileError where
  | notFound
  /-- A path goes on behind a file. -/
  | notFolder
  /-- A path ends in a folder. -/
  | isFolder
  | nameTooLong
  /-- Something else, in words. -/
  | other (why : Text)
  deriving DecidableEq, Repr, Inhabited

namespace FileError

/-- The error in words. -/
def message : FileError → Text
  | .notFound => "No such file or directory (os error 2)".toList
  | .notFolder => "Not a directory (os error 20)".toList
  | .isFolder => "Is a directory (os error 21)".toList
  | .nameTooLong => "File name too long (os error 36)".toList
  | .other why => why

end FileError

/-- What reading a file gives. -/
abbrev ReadFile := Text → Except FileError Text

/-- Files under the names that lead to them from a folder. -/
structure Folder where
  files : List (List Text × Text) := []
  deriving Repr, Inhabited

namespace Folder

/-- The folder of files with the given paths. -/
def ofPaths (files : List (Text × Text)) : Folder :=
  ⟨files.map fun f => (Text.splitAt '/' f.1, f.2)⟩

/-- How many bytes a name may have. -/
def maxName : Nat := 255

/-- How many bytes a path may have. -/
def maxPath : Nat := 4095

/-- Some file lies in the folder that `names` lead to. -/
def hasFolder (folder : Folder) (names : List Text) : Bool :=
  folder.files.any fun f => names.isPrefixOf f.1 && names.length < f.1.length

/-- Go the rest of a path from the folder that `here` leads to, or from outside, and read the file
at its end. -/
def walk (folder : Folder) (here : Option (List Text)) : List Text → Except FileError Text
  | [] => .error .isFolder
  | name :: rest =>
    if name = [] || name = ['.'] then walk folder here rest
    else if name = ['.', '.'] then
      walk folder (here.bind fun names => if names.isEmpty then none else some names.dropLast) rest
    else if maxName < Text.bytes name then .error .nameTooLong
    else
      match here with
      | none => .error .notFound
      | some names =>
        let names := names ++ [name]
        match folder.files.lookup names with
        | some t => if rest.isEmpty then .ok t else .error .notFolder
        | none =>
          if folder.hasFolder names then walk folder (some names) rest else .error .notFound

/-- Read the file at a path that starts in the folder, or outside if it starts with a slash. -/
def read (folder : Folder) : ReadFile := fun path =>
  if maxPath < Text.bytes path then .error .nameTooLong
  else walk folder (if path.head? = some '/' then none else some []) (Text.splitAt '/' path)

end Folder

end LiveMarkup
