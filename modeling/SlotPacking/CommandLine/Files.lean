/-!
Files as the command sees them, and a flat directory as a model of them.
-/
namespace SlotPacking.CommandLine

inductive FileError where
  /-- An error of the operating system, with its number. -/
  | system (text : String) (code : Nat)
  | invalidText
  deriving DecidableEq

namespace FileError

def notFound : FileError := .system "No such file or directory" 2

def notDirectory : FileError := .system "Not a directory" 20

def isDirectory : FileError := .system "Is a directory" 21

def nameTooLong : FileError := .system "File name too long" 36

def message : FileError → String
  | .system text code => s!"{text} (os error {code})"
  | .invalidText => "stream did not contain valid UTF-8"

end FileError

/-- What the command does with the world around it. -/
structure Files (m : Type → Type) where
  read : String → m (Except FileError ByteArray)
  write : String → String → m (Except FileError Unit)
  report : String → m Unit

/-- The text of a file. -/
def decode (content : ByteArray) : Except FileError String :=
  match String.fromUTF8? content with
  | some text => .ok text
  | none => .error .invalidText

/-- A directory that holds files and no other directory, with the lines reported so far. -/
structure Directory where
  files : List (String × ByteArray)
  lines : List String := []

namespace Directory

/-- Where a path has come to: the working directory, or one of those around it, of whose files
nothing is known. -/
inductive Location where
  | here
  | elsewhere
  deriving DecidableEq

/-- What a path leads to. -/
inductive Place where
  | directory
  | entry (location : Location) (name : String)
  | refused (error : FileError)

/-- Bytes of the longest path. -/
def longestPath : Nat := 4095

/-- Bytes of the longest name. -/
def longestName : Nat := 255

def find? (d : Directory) (name : String) : Option ByteArray :=
  (d.files.find? fun f => f.1 == name).map (·.2)

/-- The content under a name; names outside the working directory stand for nothing. -/
def content? (d : Directory) : Location → String → Option ByteArray
  | .here, name => d.find? name
  | .elsewhere, _ => none

/-- The error of a step through a name, which is never a directory. -/
def stepError (d : Directory) (location : Location) (name : String) : FileError :=
  if longestName < name.utf8ByteSize then .nameTooLong
  else if (d.content? location name).isSome then .notDirectory
  else .notFound

/-- Follows the steps of a path from a location. -/
def walk (d : Directory) (location : Location) : List String → Place
  | [] => .directory
  | [name] =>
    if name = "." ∨ name = ".." then .directory else .entry location name
  | name :: rest =>
    if name = "." then walk d location rest
    else if name = ".." then walk d .elsewhere rest
    else .refused (d.stepError location name)

/-- What a path leads to. Slashes in a row count as one. -/
def place (d : Directory) (path : String) : Place :=
  if longestPath < path.utf8ByteSize then .refused .nameTooLong
  else d.walk (if path.startsWith "/" then .elsewhere else .here)
    ((path.splitOn "/").filter (· ≠ ""))

/-- Reads a file; a slash behind its name asks for a directory. -/
def read (d : Directory) (path : String) : Except FileError ByteArray :=
  match d.place path with
  | .directory => .error .isDirectory
  | .refused e => .error e
  | .entry location name =>
    match d.content? location name with
    | some content => if path.endsWith "/" then .error .notDirectory else .ok content
    | none => .error (d.stepError location name)

def put (d : Directory) (name : String) (content : ByteArray) : Directory :=
  { d with files := (name, content) :: d.files.filter fun f => f.1 != name }

/-- Writes a file, which is not to be a directory. What is written outside leaves the working
directory as it is. -/
def write (d : Directory) (path text : String) : Except FileError Directory :=
  match d.place path with
  | .directory => .error .isDirectory
  | .refused e => .error e
  | .entry location name =>
    if path.endsWith "/" then .error .isDirectory
    else if longestName < name.utf8ByteSize then .error .nameTooLong
    else match location with
      | .here => .ok (d.put name text.toUTF8)
      | .elsewhere => .ok d

/-- The directory as the files of the command. -/
def asFiles : Files (StateM Directory) where
  read path := fun d => (d.read path, d)
  write path text := fun d =>
    match d.write path text with
    | .ok d => (.ok (), d)
    | .error e => (.error e, d)
  report line := fun d => ((), { d with lines := d.lines ++ [line] })

end Directory
end SlotPacking.CommandLine
