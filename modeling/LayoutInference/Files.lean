import LayoutInference.Fault

/-!
# Files

The files that a run can read and write. A path is followed name by name from the working directory or
from the root (`Files.follow`), so that every name on the way has to be a directory. Of what lies
outside the working directory only the directories that any system has are known.

A directory exists when some file lies in it. `Files.read` and `Files.write` fail for the reasons a file
system gives.
-/

namespace LayoutInference

/-- Where the names of a path start. -/
inductive Base where
  /-- The working directory. -/
  | working
  /-- A directory around the working directory. -/
  | around
  /-- The root of the file system. -/
  | root
deriving DecidableEq, Repr

/-- A place in the file system: names that lead down from a base. -/
structure Place where
  base : Base := .working
  names : List String := []
deriving DecidableEq, Repr

namespace Place

/-- The place with a name inside a directory. -/
def child (p : Place) (name : String) : Place := { p with names := p.names ++ [name] }

/-- The directory that a place lies in. The root lies in itself. -/
def parent (p : Place) : Place :=
  if !p.names.isEmpty then { p with names := p.names.dropLast }
  else if p.base = .working then { base := .around }
  else p

/-- Whether a place lies inside another one, at any depth. -/
def isBelow (p q : Place) : Bool := p.base = q.base && q.names.isPrefixOf p.names && p ≠ q

/-- The place where a path starts. -/
def start (path : String) : Place := { base := if path.startsWith "/" then .root else .working }

/-- The names of a path. Those between two slashes are empty. -/
def namesOf (path : String) : List String := path.splitOn "/"

/-- One more name of a path, if all before it are directories. -/
def step (p : Place) (name : String) : Place :=
  if name = "" ∨ name = "." then p
  else if name = ".." then p.parent
  else p.child name

/-- The place that a path leads to, if all before its last name are directories. -/
def ofPath (path : String) : Place := (namesOf path).foldl step (start path)

/-- The places that names lead through from a place, which is one of them. -/
def through (p : Place) : List String → List Place
  | [] => [p]
  | name :: names => p :: (p.step name).through names

end Place

/-- Why a file cannot be reached, read or written. -/
inductive Access where
  | missing
  | notDirectory
  | isDirectory
  | longName
  | invalid
deriving DecidableEq, Repr

/-- The wording of a reason. -/
def Access.text : Access → String
  | .missing => "no such file or directory"
  | .notDirectory => "not a directory"
  | .isDirectory => "is a directory"
  | .longName => "file name too long"
  | .invalid => "invalid argument"

/-- An operation on a path that failed. -/
structure FileTrouble where
  operation : String
  path : String
  reason : Access
deriving DecidableEq, Repr

/-- The fault that a failed operation is. -/
def FileTrouble.fault (t : FileTrouble) : Fault :=
  .plain (t.operation ++ " " ++ t.path ++ ": " ++ t.reason.text)

/-- Files, each with its place and content, and directories that may be empty. -/
structure Files where
  entries : List (Place × String) := []
  directories : List Place := []

/-- The greatest number of bytes of a path. -/
def pathLimit : Nat := 4095

/-- The greatest number of bytes of a name. -/
def nameLimit : Nat := 255

/-- The directories that lie in the root of any system. -/
def systemDirectories : List String :=
  ["bin", "boot", "dev", "etc", "home", "lib", "lib64", "media", "mnt", "opt", "proc", "root", "run",
    "sbin", "srv", "sys", "tmp", "usr", "var"]

/-- The file that is always empty and forgets what is written to it. -/
def nullDevice : Place := { base := .root, names := ["dev", "null"] }

namespace Files

/-- The content of a file. -/
def content? (files : Files) (place : Place) : Option String :=
  if place = nullDevice then some "" else files.entries.lookup place

/-- Whether a directory is at a place. -/
def isDirectory (files : Files) (place : Place) : Bool :=
  place.names.isEmpty || files.directories.contains place
    || (place.base = .root && systemDirectories.any fun name => place.names = [name])
    || files.entries.any fun entry => entry.1.isBelow place

/-- Refuse a place that is no directory. -/
def checkDirectory (files : Files) (place : Place) : Except Access Unit :=
  if files.isDirectory place then .ok ()
  else if (files.content? place).isSome then .error .notDirectory
  else .error .missing

/-- Follow the names of a path from a place, which has to be a directory if there are any. -/
def follow (files : Files) (place : Place) : List String → Except Access Place
  | [] => .ok place
  | name :: names => do
    files.checkDirectory place
    if name.utf8ByteSize > nameLimit then throw .longName
    files.follow (place.step name) names

/-- Refuse a path that no file can have. -/
def checkPath (path : String) : Except Access Unit :=
  if path.toList.any (·.toNat = 0) then .error .invalid
  else if path = "" then .error .missing
  else if path.utf8ByteSize > pathLimit then .error .longName
  else .ok ()

/-- The content of the file that a path leads to, or why the path cannot be opened. A directory can be
opened, but it has no content. -/
def lookup (files : Files) (path : String) : Except Access (Option String) := do
  checkPath path
  let place ← files.follow (Place.start path) (Place.namesOf path)
  match files.content? place with
  | some content => return some content
  | none =>
    if files.isDirectory place then return none
    throw .missing

/-- Read a file. -/
def read (files : Files) (path : String) : Except FileTrouble String :=
  match files.lookup path with
  | .error reason => .error ⟨"open", path, reason⟩
  | .ok none => .error ⟨"read", path, .isDirectory⟩
  | .ok (some content) => .ok content

/-- The place where a path lets a file be written. -/
def target (files : Files) (path : String) : Except Access Place := do
  checkPath path
  let names := (Place.namesOf path).filter (· ≠ "")
  match names.getLast? with
  | none => throw .isDirectory
  | some name =>
    let directory ← files.follow (Place.start path) names.dropLast
    files.checkDirectory directory
    if path.endsWith "/" ∨ name = "." ∨ name = ".." then throw .isDirectory
    if name.utf8ByteSize > nameLimit then throw .longName
    let place := directory.child name
    if files.isDirectory place then throw .isDirectory
    return place

/-- Replace the content of a file, or add it. -/
def put (place : Place) (content : String) : List (Place × String) → List (Place × String)
  | [] => [(place, content)]
  | entry :: entries =>
    if entry.1 = place then (place, content) :: entries else entry :: put place content entries

/-- Write a file into a directory that exists. -/
def write (files : Files) (path content : String) : Except FileTrouble Files :=
  match files.target path with
  | .error reason => .error ⟨"open", path, reason⟩
  | .ok place => .ok { files with entries := put place content files.entries }

/-- The files of the working directory that are new or changed since `before`, by path. -/
def changedSince (files before : Files) : List (String × String) :=
  let changed := files.entries.filter fun entry =>
    entry.1.base = .working && before.content? entry.1 ≠ some entry.2
  changed.map fun entry => ("/".intercalate entry.1.names, entry.2)

end Files

end LayoutInference
