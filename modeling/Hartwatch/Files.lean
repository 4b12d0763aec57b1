import Hartwatch.Word

/-! A file system as a value. A path is read part by part, from the root or from the present
directory, and only a directory leads on. -/

namespace Hartwatch

inductive FileError where
  | notFound
  | notDirectory
  | isDirectory
  | nameTooLong
  | nulInPath
  | other (text : String)
  deriving DecidableEq, Repr

def FileError.message : FileError → String
  | notFound => "No such file or directory (os error 2)"
  | notDirectory => "Not a directory (os error 20)"
  | isDirectory => "Is a directory (os error 21)"
  | nameTooLong => "File name too long (os error 36)"
  | nulInPath => "file name contained an unexpected NUL byte"
  | other text => text

/-- The names between the root and a file or directory, its own name first. -/
abbrev Place := List String

inductive Node where
  | directory
  | file (content : List Byte)
  /-- Takes whatever is written and has nothing to read. -/
  | sink
  deriving DecidableEq, Repr

structure Files where
  nodes : List (Place × Node)
  present : Place
  deriving DecidableEq, Repr

namespace Files

def bare : Files :=
  ⟨[], []⟩

def node? (f : Files) : Place → Option Node
  | [] => some .directory
  | place => f.nodes.lookup place

/-- The pieces of a path between its slashes, empty ones too. -/
def parts : List Char → List (List Char)
  | [] => [[]]
  | c :: cs =>
    if c = '/' then [] :: parts cs
    else match parts cs with
      | [] => [[c]]
      | part :: rest => (c :: part) :: rest

def maxPathBytes : Nat := 4095

def maxNameBytes : Nat := 255

def follow (f : Files) (place : Place) (part : String) : Except FileError Place :=
  match f.node? place with
  | none => .error .notFound
  | some .directory =>
    if part = "" ∨ part = "." then .ok place
    else if part = ".." then .ok place.tail
    else if maxNameBytes < part.utf8ByteSize then .error .nameTooLong
    else .ok (part :: place)
  | some _ => .error .notDirectory

/-- The place a path leads to, where nothing need stand yet. -/
def resolve (f : Files) (path : String) : Except FileError Place :=
  if Char.ofNat 0 ∈ path.toList then .error .nulInPath
  else if path = "" then .error .notFound
  else if maxPathBytes < path.utf8ByteSize then .error .nameTooLong
  else ((parts path.toList).map String.ofList).foldlM f.follow
    (if path.toList.head? = some '/' then [] else f.present)

def read (f : Files) (path : String) : Except FileError (List Byte) := do
  match f.node? (← f.resolve path) with
  | none => .error .notFound
  | some .directory => .error .isDirectory
  | some (.file content) => .ok content
  | some .sink => .ok []

def put (f : Files) (place : Place) (content : List Byte) : Files :=
  { f with nodes := (place, .file content) :: f.nodes }

/-- Gives the file at a path this content alone, and creates it if there is none. -/
def write (f : Files) (path : String) (content : List Byte) : Except FileError Files := do
  let place ← f.resolve path
  match f.node? place with
  | some .directory => .error .isDirectory
  | some .sink => .ok f
  | _ => .ok (f.put place content)

end Files

end Hartwatch
