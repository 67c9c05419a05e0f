import DesignRecipe.Text.Quoted
import DesignRecipe.Text.Utf8

/-!
# Files

A folder is a list of named entries. A path is followed part by part from the folder;
outside of the folder there are only directories, and nothing can be found in them.
-/
namespace DesignRecipe

inductive Entry where
  | file (bytes : List UInt8)
  | directory

/-- Why the bytes of a file can not be had. -/
inductive FileFault where
  | notFound
  | denied
  | notDirectory
  | isDirectory
  | nameTooLong
  deriving DecidableEq, Repr

/-- The fault of a path in the words of the operating system. -/
def FileFault.message (path : Text) : FileFault → Text
  | .notFound => "[Errno 2] No such file or directory: ".toList ++ Text.quoted path
  | .denied => "[Errno 13] Permission denied: ".toList ++ Text.quoted path
  | .notDirectory => "[Errno 20] Not a directory: ".toList ++ Text.quoted path
  | .isDirectory => "[Errno 21] Is a directory: ".toList ++ Text.quoted path
  | .nameTooLong => "[Errno 36] File name too long: ".toList ++ Text.quoted path

/-- What is in the files, by their paths. -/
abbrev Contents := Text → Except FileFault (List UInt8)

/-- Files that nobody changes are the same whenever they are looked at. -/
instance : Coe Contents (Nat → Contents) where
  coe contents _ := contents

/-- Entries by the parts of their path below the folder. -/
abbrev Folder := List (List Text × Entry)

namespace Folder

/-- The most bytes that a name may have. -/
def longestName : Nat := 255

/-- The most bytes that a path may have. -/
def longestPath : Nat := 4095

def byteLength (s : Text) : Nat := (Text.Utf8.encode s).length

/-- The parts between slashes, empty ones included. -/
def splitParts : Text → List Text
  | [] => [[]]
  | '/' :: s => [] :: splitParts s
  | c :: s =>
    match splitParts s with
    | part :: parts => (c :: part) :: parts
    | [] => [[c]]

/-- What stands at a place below the folder. A place on the way to an entry is a directory. -/
def lookup (folder : Folder) (place : List Text) : Option Entry :=
  match folder.find? fun (p, _) => p == place with
  | some (_, e) => some e
  | none =>
    if place.isEmpty || folder.any fun (p, _) => place.isPrefixOf p then some .directory else none

/-- Where a path leads to: the parts below the folder, or somewhere outside of it. -/
inductive Place where
  | inside (parts : List Text)
  | outside

def enter (folder : Folder) (name : Text) : Place → Except FileFault (Place × Entry)
  | .inside parts =>
    if name == ['.'] || name.isEmpty then .ok (.inside parts, .directory)
    else if name == ['.', '.'] then
      if parts.isEmpty then .ok (.outside, .directory) else .ok (.inside parts.dropLast, .directory)
    else if byteLength name > longestName then .error .nameTooLong
    else
      match folder.lookup (parts ++ [name]) with
      | some e => .ok (.inside (parts ++ [name]), e)
      | none => .error .notFound
  | .outside =>
    if name == ['.'] || name.isEmpty || name == ['.', '.'] then .ok (.outside, .directory)
    else if byteLength name > longestName then .error .nameTooLong
    else .error .notFound

/-- Follows the parts of a path. Only a directory can be left for a further part. -/
def follow (folder : Folder) : Place × Entry → List Text → Except FileFault Entry
  | (_, e), [] => .ok e
  | (_, .file _), _ :: _ => .error .notDirectory
  | (place, .directory), name :: names => do folder.follow (← folder.enter name place) names

/-- The bytes of the file at a path. -/
def bytes (folder : Folder) (path : Text) : Except FileFault (List UInt8) := do
  if byteLength path > longestPath then throw .nameTooLong
  let start := if path.head? = some '/' then Place.outside else .inside []
  match ← folder.follow (start, .directory) (splitParts path) with
  | .file bytes => return bytes
  | .directory => throw .isDirectory

end Folder

end DesignRecipe
