import AmdUnwrap.Text.Utf8

namespace AmdUnwrap

inductive SystemError where
  | notFound
  | isDirectory
  | notDirectory
  | other (message : Text)
  deriving DecidableEq, Repr

def SystemError.message : SystemError → Text
  | notFound => "No such file or directory (os error 2)".toList
  | isDirectory => "Is a directory (os error 21)".toList
  | notDirectory => "Not a directory (os error 20)".toList
  | other message => message

inductive InputError where
  | opening (error : SystemError)
  | reading (error : SystemError)
  deriving DecidableEq, Repr

/-- The files of a system, as a run reads and writes them. -/
class FileSystem (Files : Type) where
  readFile : Files → Text → Except InputError Bytes
  writeFile : Files → Text → Bytes → Except SystemError Files

structure File where
  path : Text
  content : Bytes
  deriving DecidableEq, Repr

/-- A tree of files that may all be read and written, and has no links. -/
abbrev Directory := List File

namespace Directory

def splitPath : Text → List Text
  | [] => [[]]
  | c :: cs =>
    if c = '/' then [] :: splitPath cs
    else match splitPath cs with
      | [] => [[c]]
      | step :: rest => (c :: step) :: rest

/-- The steps of a path; empty ones and single points lead nowhere. -/
def steps (path : Text) : List Text :=
  (splitPath path).filter fun step => step ≠ [] ∧ step ≠ ['.']

def find? (d : Directory) (path : Text) : Option File :=
  List.find? (fun file => steps file.path == steps path) d

def holds (d : Directory) (path : List Text) : Bool :=
  path.isEmpty || List.any d fun file =>
    path.isPrefixOf (steps file.path) && path != steps file.path

def blocks (d : Directory) (path : List Text) : Bool :=
  List.any d fun file => (steps file.path).isPrefixOf path && path != steps file.path

def endsWithSlash (path : Text) : Bool := path.getLast? == some '/'

def readFile (d : Directory) (path : Text) : Except InputError Bytes :=
  if d.holds (steps path) then .error (.reading .isDirectory)
  else match d.find? path with
    | some file => if endsWithSlash path then .error (.opening .notDirectory) else .ok file.content
    | none => .error (.opening (if d.blocks (steps path) then .notDirectory else .notFound))

/-- Puts the content where it was, or last if the file is new. -/
def put (d : Directory) (path : Text) (content : Bytes) : Directory :=
  if (d.find? path).isSome then
    d.map fun file =>
      if steps file.path == steps path then { file with content := content } else file
  else d ++ [⟨path, content⟩]

def writeFile (d : Directory) (path : Text) (content : Bytes) : Except SystemError Directory :=
  if d.blocks (steps path) then .error .notDirectory
  else if !d.holds (steps path).dropLast then .error .notFound
  else if endsWithSlash path || d.holds (steps path) then .error .isDirectory
  else .ok (d.put path content)

end Directory

instance : FileSystem Directory where
  readFile := Directory.readFile
  writeFile := Directory.writeFile

end AmdUnwrap
