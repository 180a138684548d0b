/-! A folder of text files, and what reading a path from it finds. A path is followed name by name,
and only a folder has names to follow: an empty name and `.` stay where they are, `..` goes up, and
any other name goes down. Of what lies outside the folder only the places that every system has are
known. -/
namespace CodeCompletion.CommandLine

inductive FileError where
  | missing
  | denied
  /-- A name is looked up in something that is not a folder. -/
  | notFolder
  /-- The path leads to a folder. -/
  | isFolder
  | nameTooLong
  /-- The file is not encoded in UTF-8. -/
  | notText
  | unreadable (reason : String)
deriving DecidableEq

def FileError.message : FileError → String
  | missing => "No such file or directory (os error 2)"
  | denied => "Permission denied (os error 13)"
  | notFolder => "Not a directory (os error 20)"
  | isFolder => "Is a directory (os error 21)"
  | nameTooLong => "File name too long (os error 36)"
  | notText => "stream did not contain valid UTF-8"
  | unreadable reason => reason

abbrev FileText := Except FileError String

abbrev Route := List String

/-- What lies below a folder: its files with their texts, and folders that may be empty. -/
structure Folder where
  files : List (Route × String) := []
  folders : List Route := []

inductive Base where
  /-- The folder from which paths are read. -/
  | here
  /-- A folder above it. -/
  | above
  /-- The root of the system. -/
  | root
deriving DecidableEq

structure Place where
  base : Base
  route : Route := []
deriving DecidableEq

/-- The place one folder up. The root and what is above the folder go no further. -/
def Place.up (place : Place) : Place :=
  if place.route.isEmpty then
    { base := if place.base = .here then .above else place.base }
  else { place with route := place.route.dropLast }

namespace Folder

def names (path : String) : List String :=
  path.splitOn "/"

def ofFiles (files : List (String × String)) : Folder where
  files := files.map fun (path, text) =>
    ((names path).filter fun name => name ≠ "" ∧ name ≠ ".", text)

def system : Folder where
  files := [(["dev", "null"], "")]
  folders := [["tmp"]]

/-- Whether a route ends at a folder, which it does above every file and folder. -/
def isFolder (f : Folder) (route : Route) : Bool :=
  route.isEmpty || f.folders.any route.isPrefixOf
    || f.files.any fun (way, _) => route ≠ way && route.isPrefixOf way

def text? (f : Folder) (route : Route) : Option String :=
  f.files.lookup route

/-- The folder that a base stands for. Nothing is known of those above. -/
def ofBase (f : Folder) : Base → Folder
  | .here => f
  | .above => {}
  | .root => system

/-- The largest size of a name in bytes. -/
def maxNameSize : Nat := 255

def maxPathSize : Nat := 4095

def follow (f : Folder) (place : Place) (name : String) : Except FileError Place :=
  let base := f.ofBase place.base
  let route := place.route ++ [name]
  if !base.isFolder place.route then .error .notFolder
  else if name = "" ∨ name = "." then .ok place
  else if name = ".." then .ok place.up
  else if maxNameSize < name.utf8ByteSize then .error .nameTooLong
  else if base.isFolder route ∨ (base.text? route).isSome then .ok { place with route }
  else .error .missing

/-- The place to which a path leads. It starts at the root if it starts with a slash. -/
def locate (f : Folder) (path : String) : Except FileError Place :=
  let base : Base := if path.toList.head? = some '/' then .root else .here
  (names path).foldlM f.follow { base }

def read (f : Folder) (path : String) : FileText :=
  if path.isEmpty then .error .missing
  else if maxPathSize < path.utf8ByteSize then .error .nameTooLong
  else
    match f.locate path with
    | .error e => .error e
    | .ok place => ((f.ofBase place.base).text? place.route).elim (.error .isFolder) .ok

end Folder

end CodeCompletion.CommandLine
