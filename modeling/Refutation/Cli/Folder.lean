import Refutation.Error

/-!
# Files in memory

A folder of text files, in which a program can be run without a disk.  `Folder.read` follows a path
name by name, the way a file system does: the first name that leads nowhere decides the fault.
Above the folder there are directories too, but nothing in them can be read.
-/

namespace Refutation

namespace Cli

/-- A folder: the paths of its files, and their texts. -/
structure Folder where
  /-- The files. -/
  files : List (String × String)
deriving Inhabited

namespace Folder

/-- How many bytes a name in a path may have. -/
def maxNameSize : Nat := 255

/-- How many bytes a path may have. -/
def maxPathSize : Nat := 4095

/-- Where one is on a path. -/
inductive Place where
  /-- A directory above the folder. -/
  | above
  /-- The folder, or a directory in it; the names lead there from the folder. -/
  | directory (names : List String)
  | file (text : String)
deriving DecidableEq, Repr, Inhabited

/-- The names in a path. -/
def names (path : String) : List String := path.splitOn "/"

variable (F : Folder)

/-- What the names lead to, from the folder. -/
def find? (path : List String) : Option Place :=
  match F.files.find? fun f => names f.1 = path with
  | some f => some (.file f.2)
  | none =>
    if F.files.any fun f => path.isPrefixOf (names f.1) then some (.directory path) else none

/-- Go on from a place by one name.  An empty name, as at the end of a path after a slash, and a
single point stay at the place, which must be a directory. -/
def enter (place : Place) (name : String) : Except FileFault Place :=
  match place with
  | .file _ => .error .notADirectory
  | .above =>
    if name = "" ∨ name = "." ∨ name = ".." then .ok .above
    else .error (if name.utf8ByteSize ≤ maxNameSize then .notFound else .nameTooLong)
  | .directory path =>
    if name = "" ∨ name = "." then .ok place
    else if name = ".." then .ok (if path = [] then .above else .directory path.dropLast)
    else if maxNameSize < name.utf8ByteSize then .error .nameTooLong
    else
      match F.find? (path ++ [name]) with
      | some place => .ok place
      | none => .error .notFound

/-- Where a path begins: a slash in front leads out of the folder. -/
def start : List String → Place
  | "" :: _ :: _ => .above
  | _ => .directory []

/-- Read a file. -/
def read (path : String) : Except FileFault String :=
  if path = "" then .error .notFound
  else if maxPathSize < path.utf8ByteSize then .error .nameTooLong
  else do
    match ← (names path).foldlM F.enter (start (names path)) with
    | .file text => return text
    | _ => throw .isADirectory

end Folder

end Cli

end Refutation
