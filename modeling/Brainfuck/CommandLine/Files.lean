/-!
# Files

Which file a path leads to, or why it leads to none. A path is walked part by part, and the first
part that cannot be gone decides what is wrong: every part but the last has to be a directory. Empty
parts and `.` stay where they are, so a path that ends in a slash has to lead to a directory.
-/

namespace Brainfuck.CommandLine

/-- Why a file could not be read as text. -/
inductive FileError where
  /-- There is nothing of that name. -/
  | notFound
  /-- A file stands where a directory is needed. -/
  | notDirectory
  /-- A directory stands where a file is needed. -/
  | isDirectory
  /-- A name or a path is longer than they may be. -/
  | nameTooLong
  /-- The file's bytes are no text. -/
  | notText
  /-- What the system says about any other reason. -/
  | other (text : String)
  deriving DecidableEq

/-- The system's number for a file that stands where a directory is needed. -/
def FileError.notDirectoryCode : Nat :=
  20

/-- The reason in words. -/
def FileError.message : FileError → String
  | .notFound => "No such file or directory (os error 2)"
  | .notDirectory => "Not a directory (os error 20)"
  | .isDirectory => "Is a directory (os error 21)"
  | .nameTooLong => "File name too long (os error 36)"
  | .notText => "stream did not contain valid UTF-8"
  | .other text => text

/-- The files that an invocation can reach. Paths that start with a slash are absolute, all others
lead from the working directory. -/
structure FileTree where
  /-- The path and the content of each file. -/
  files : List (String × ByteArray)
  /-- The paths of directories beside those that hold a file. -/
  directories : List String
  /-- How many directories the working directory is below the root. -/
  depth : Nat
  /-- The paths of the files that are standard input itself. -/
  inputs : List String

/-- A place among the files. -/
structure Place where
  /-- The way there starts at the root and not at the working directory. -/
  absolute : Bool
  /-- How many directories it first goes up. -/
  up : Nat
  /-- The names on the way. -/
  names : List (List Char)
  deriving DecidableEq

namespace Place

/-- The parts of a path between its slashes. -/
def parts : List Char → List (List Char)
  | [] => [[]]
  | c :: cs =>
    match parts cs with
    | part :: rest => if c = '/' then [] :: part :: rest else (c :: part) :: rest
    | [] => [[c]]

/-- The place where a path starts. -/
def base (path : String) : Place :=
  ⟨path.toList.head? == some '/', 0, []⟩

/-- The place that the path of a file or directory stands for, if it goes up at its start only. -/
def ofPath (path : String) : Place :=
  let names := (parts path.toList).filter fun part => part != [] && part != ['.']
  let ups := names.takeWhile (· == ['.', '.'])
  { base path with up := ups.length, names := names.drop ups.length }

/-- The place of a name in a directory. -/
def child (p : Place) (name : List Char) : Place :=
  { p with names := p.names ++ [name] }

/-- The directory that holds a directory in a tree whose working directory is `depth` directories
below the root; the root holds itself. -/
def parent (depth : Nat) (p : Place) : Place :=
  if !p.names.isEmpty then { p with names := p.names.dropLast }
  else if p.absolute || depth ≤ p.up + 1 then ⟨true, 0, []⟩
  else { p with up := p.up + 1 }

/-- The place is a directory on the way to `other`, or `other` itself. -/
def leadsTo (p other : Place) : Bool :=
  p.absolute == other.absolute && p.up == other.up && p.names.isPrefixOf other.names

end Place

/-- What stands at a place. -/
inductive Entry where
  | file (content : ByteArray)
  | directory
  | nothing

namespace FileTree

/-- The longest name of a file, in bytes. -/
def longestName : Nat :=
  255

/-- The longest path, in bytes. -/
def longestPath : Nat :=
  4095

/-- What stands at a place. -/
def entry (t : FileTree) (p : Place) : Entry :=
  match t.files.find? fun (path, _) => Place.ofPath path == p with
  | some (_, content) => .file content
  | none =>
    if t.files.any (fun (path, _) => p.leadsTo (.ofPath path)) ||
        t.directories.any (fun path => p.leadsTo (.ofPath path)) then
      .directory
    else .nothing

/-- Walks on from a directory, one part of a path after the other, to the content of a file. -/
def walk (t : FileTree) (p : Place) : List (List Char) → Except FileError ByteArray
  | [] => .error .isDirectory
  | part :: rest =>
    if part = [] ∨ part = ['.'] then walk t p rest
    else if part = ['.', '.'] then walk t (p.parent t.depth) rest
    else if longestName < (String.ofList part).utf8ByteSize then .error .nameTooLong
    else
      match t.entry (p.child part) with
      | .nothing => .error .notFound
      | .directory => walk t (p.child part) rest
      | .file content => if rest.isEmpty then .ok content else .error .notDirectory

/-- The content of the file at a path. -/
def read (t : FileTree) (path : String) : Except FileError ByteArray :=
  if path.isEmpty then .error .notFound
  else if longestPath < path.utf8ByteSize then .error .nameTooLong
  else t.walk (.base path) (Place.parts path.toList)

/-- The file at a path is standard input itself. -/
def isInput (t : FileTree) (path : String) : Bool :=
  t.inputs.contains path

/-- The text that the bytes of a file spell. -/
def textOf (content : ByteArray) : Except FileError String :=
  match String.fromUTF8? content with
  | some text => .ok text
  | none => .error .notText

/-- The text of the file at a path. -/
def readText (t : FileTree) (path : String) : Except FileError String :=
  match t.read path with
  | .ok content => textOf content
  | .error e => .error e

end FileTree

end Brainfuck.CommandLine
