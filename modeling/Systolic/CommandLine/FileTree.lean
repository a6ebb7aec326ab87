import Systolic.CommandLine.PathName

/-
  This file defines directories that are held in memory, and the
  reading and writing of files in them. A directory is there when
  it holds a file, or is the working directory or one above it.

  Key definitions include:
    * `FileFault`
    * `FileTree`
    * `FileTree.locate`
    * `FileTree.read`
    * `FileTree.write`
    * `FileTree.access`
-/

namespace Systolic

------------------------------------------------------------
-- Access to Files
------------------------------------------------------------

/- Why a file cannot be read or written. -/
inductive FileFault where
| notFound
| notDirectory
| isDirectory
| nameTooLong
| invalidText
| other (message : String)
deriving DecidableEq, Repr

/- The report of a file fault. -/
def FileFault.report : FileFault → String
| notFound =>
    "Os \x7b code: 2, kind: NotFound, message: \"No such file or directory\" \x7d"
| notDirectory =>
    "Os \x7b code: 20, kind: NotADirectory, message: \"Not a directory\" \x7d"
| isDirectory =>
    "Os \x7b code: 21, kind: IsADirectory, message: \"Is a directory\" \x7d"
| nameTooLong =>
    "Os \x7b code: 36, kind: InvalidFilename, message: \"File name too long\" \x7d"
| invalidText =>
    "Error \x7b kind: InvalidData, message: \"stream did not contain valid UTF-8\" \x7d"
| other message => message

/- How files are read and written. -/
structure FileAccess (m : Type → Type) where
  read : String → m (Except FileFault String)
  write : String → List UInt8 → m (Except FileFault Unit)

------------------------------------------------------------
-- Directories in Memory
------------------------------------------------------------

/- A file with the directories on the way to it. -/
structure StoredFile where
  path : List String
  bytes : List UInt8
deriving DecidableEq, Repr

/- Files, and the directory that paths start from. -/
structure FileTree where
  current : List String
  files : List StoredFile
deriving DecidableEq, Repr

/- What a path leads to. -/
inductive Place where
| directory (path : List String)
| file (path : List String)
| missing (path : List String)
deriving DecidableEq, Repr

namespace FileTree

/- The file at a path. -/
def file?
    (t : FileTree)
    (path : List String) : Option StoredFile :=
  t.files.find? (fun f => f.path = path)

/- A path leads to a directory. -/
def isDirectory
    (t : FileTree)
    (path : List String) : Bool :=
  path.isPrefixOf t.current ||
    t.files.any (fun f => path.isPrefixOf f.path && f.path ≠ path)

/- What a path that is not a parent leads to. -/
def placeOf
    (t : FileTree)
    (path : List String) : Place :=
  if t.isDirectory path then .directory path
  else if (t.file? path).isSome then .file path
  else .missing path

/- The most bytes that the name of a file has. -/
def maxNameBytes : Nat :=
  255

/- The most bytes that a path has. -/
def maxPathBytes : Nat :=
  4095

/- Follow one part of a path. -/
def follow
    (t : FileTree)
    (place : Place)
    (segment : String) : Except FileFault Place :=
  match place with
  | .missing _ => .error .notFound
  | .file _ => .error .notDirectory
  | .directory path =>
      if segment = "" ∨ segment = "." then .ok (.directory path)
      else if segment = ".." then .ok (.directory path.dropLast)
      else if maxNameBytes < segment.utf8ByteSize then .error .nameTooLong
      else .ok (t.placeOf (path ++ [segment]))

/- What a path leads to. -/
def locate
    (t : FileTree)
    (path : String) : Except FileFault Place :=
  if maxPathBytes < path.utf8ByteSize then .error .nameTooLong
  else
    let segments := (PathName.segments path.toList).map String.ofList
    let start := if path.toList.head? = some '/' then [] else t.current
    segments.foldlM t.follow (.directory start)

/- The text of a file. -/
def read
    (t : FileTree)
    (path : String) : Except FileFault String :=
  match t.locate path with
  | .error e => .error e
  | .ok (.missing _) => .error .notFound
  | .ok (.directory _) => .error .isDirectory
  | .ok (.file path) =>
      match t.file? path with
      | none => .error .notFound
      | some f =>
          match String.fromUTF8? ⟨f.bytes.toArray⟩ with
          | some text => .ok text
          | none => .error .invalidText

/- Put bytes into the file at a path. -/
def put
    (t : FileTree)
    (path : List String)
    (bytes : List UInt8) : FileTree :=
  { t with
    files := t.files.filter (fun f => f.path ≠ path) ++ [{ path, bytes }] }

/- Write a file, which need not be there. -/
def write
    (t : FileTree)
    (path : String)
    (bytes : List UInt8) : Except FileFault FileTree :=
  match t.locate path with
  | .error e => .error e
  | .ok (.directory _) => .error .isDirectory
  | .ok (.file path) => .ok (t.put path bytes)
  | .ok (.missing path) => .ok (t.put path bytes)

/- Access to files that are held in memory. -/
def access : FileAccess (StateM FileTree) :=
  { read := fun path => do
      return (← get).read path
    write := fun path bytes => do
      match (← get).write path bytes with
      | .error e => return .error e
      | .ok t =>
          set t
          return .ok () }

/- The files of the working directory that another state does not hold. -/
def changedSince
    (t before : FileTree) : List (List String × List UInt8) :=
  (t.files.filter
    (fun f => t.current.isPrefixOf f.path && before.file? f.path ≠ some f)).map
      (fun f => (f.path.drop t.current.length, f.bytes))

end FileTree

end Systolic
