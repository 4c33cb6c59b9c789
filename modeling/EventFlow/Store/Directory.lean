import EventFlow.Store.Basic
import EventFlow.Text.Line
import EventFlow.Text.Order

/-!
A store in a directory: files of bytes, and directories that hold them.

A path is the list of its parts; empty parts and `.` do not count, and `..` leads back. A file is
written after the directories above it have been made, which fails if a file is in the way. A text
is read with every line break as a line feed.
-/

namespace EventFlow

structure Directory where
  /-- The name of the directory, for messages. -/
  base : String
  files : List (List String × List UInt8) := []
  directories : List (List String) := []
  deriving DecidableEq, Repr

namespace Directory

/-! ## Paths -/

def parts (path : String) : List String :=
  ((Text.cut '/' path.toList).filter fun part => part ≠ [] && part ≠ ['.']).map String.ofList

def joined (parts : List String) : String := Text.joinWith "/" parts

/-- A path below the directory, with the directory's name before it. -/
def located (d : Directory) (path : String) : String := joined (d.base :: parts path)

/-! ## Files -/

def bytes? (d : Directory) (path : List String) : Option (List UInt8) := d.files.lookup path

def isFile (d : Directory) (path : List String) : Bool := (d.bytes? path).isSome

def isDirectory (d : Directory) (path : List String) : Bool :=
  path.isEmpty || d.directories.contains path

/-- Where a path leads, from a place on: `..` leads back from a directory that is there, but not
out of the store. -/
def follow (d : Directory) (place : List String) : List String → Option (List String)
  | [] => some place
  | part :: rest =>
    if part = ".." then
      if place ≠ [] && d.isDirectory place then d.follow place.dropLast rest else none
    else d.follow (place ++ [part]) rest

/-- The file or directory that a path leads to. -/
def find? (d : Directory) (path : String) : Option (List String) := d.follow [] (parts path)

/-- Makes a directory and those above it, from a place on, and says where it is. -/
def make (d : Directory) (place : List String) :
    List String → Except Store.Fault (Directory × List String)
  | [] => .ok (d, place)
  | part :: rest =>
    let next := if part = ".." then place.dropLast else place ++ [part]
    if d.isFile next then .error (if rest.isEmpty then .fileExists else .notADirectory)
    else if d.isDirectory next then d.make next rest
    else { d with directories := d.directories ++ [next] }.make next rest

/-- Sets the bytes of a file, in place if it is there and at the end otherwise. -/
def put (path : List String) (bytes : List UInt8) :
    List (List String × List UInt8) → List (List String × List UInt8)
  | [] => [(path, bytes)]
  | (p, b) :: rest => if p = path then (p, bytes) :: rest else (p, b) :: put path bytes rest

def writeBytes (d : Directory) (path : String) (bytes : List UInt8) :
    Except Store.Fault Directory := do
  let path := parts path
  let (d, place) ← d.make [] path.dropLast
  match d.follow place path.getLast?.toList with
  | none => throw .isADirectory
  | some file =>
    if d.isDirectory file then throw .isADirectory
    return { d with files := put file bytes d.files }

/-- Every line break becomes a line feed. -/
def unifyBreaks : List Char → List Char
  | [] => []
  | '\r' :: '\n' :: rest => '\n' :: unifyBreaks rest
  | '\r' :: rest => '\n' :: unifyBreaks rest
  | c :: rest => c :: unifyBreaks rest

def readText (d : Directory) (path : String) : Except Store.Fault String :=
  match (d.find? path).bind d.bytes? with
  | none => .error (.notFound (d.located path))
  | some bytes =>
    match Text.Utf8.decode bytes with
    | .ok text => .ok (String.ofList (unifyBreaks text.toList))
    | .error fault => .error (.undecodable fault)

/-- The files below a directory, each path starting as `root` does. -/
def tree (d : Directory) (root : String) : List String :=
  match d.find? root with
  | some place =>
    if d.isDirectory place then
      let below := (d.files.map (·.1)).filter (place.isPrefixOf ·)
      Text.ascending (below.map fun path => joined (parts root ++ path.drop place.length))
    else []
  | none => []

instance : Store Directory where
  read := readText
  write d path text := d.writeBytes path (Text.Utf8.encode text)
  has d path := (d.find? path).any fun place => d.isFile place || d.isDirectory place
  list := tree

end Directory

end EventFlow
