import RuneAsm.Failure
import RuneAsm.Path
import RuneAsm.Text.Utf8

namespace RuneAsm

-- A place is a list of names from the root down. Relative paths start from the working directory.

inductive Node where
  | file (content : List UInt8)
  | directory
deriving DecidableEq, Repr

abbrev Place : Type := List String

structure Disk where
  workingDirectory : Place
  entries : List (Place × Node) := []

namespace Disk

-- The directories above an entry and above the working directory exist with it.
def node? (d : Disk) (place : Place) : Option Node :=
  match d.entries.lookup place with
  | some node => some node
  | none =>
    if place.isPrefixOf d.workingDirectory || d.entries.any (fun entry => place.isPrefixOf entry.1) then
      some .directory
    else none

def put (d : Disk) (place : Place) (node : Node) : Disk :=
  { d with entries := d.entries.filter (·.1 ≠ place) ++ [(place, node)] }

inductive Obstacle where
  | missing
  | notDirectory
deriving DecidableEq, Repr

-- Each step starts in a directory, also one that stays where it is.
def step (d : Disk) (here : Place) (name : String) : Except Obstacle Place :=
  match d.node? here with
  | none => .error .missing
  | some (.file _) => .error .notDirectory
  | some .directory =>
    if name = "" ∨ name = "." then .ok here
    else if name = ".." then .ok here.dropLast
    else .ok (here ++ [name])

-- What a path leads to may not exist; all directories before it do.
def follow (d : Disk) (text : String) : Except Obstacle Place :=
  if text = "" then .error .missing
  else
    let start := if Path.rootOf text = "" then d.workingDirectory else []
    (Path.splitSlashes text).foldlM d.step start

def lookup? (d : Disk) (text : String) : Option Node :=
  match d.follow text with
  | .error _ => none
  | .ok place => d.node? place

def isFile (d : Disk) (p : Path) : Bool :=
  match d.lookup? p.text with
  | some (.file _) => true
  | _ => false

def working (d : Disk) : Path := ⟨"/", d.workingDirectory⟩

-- The place a path names when no directory is looked at: a double dot takes the last name away.
def resolve (d : Disk) (p : Path) : Place :=
  p.parts.foldl (fun here name => if name = ".." then here.dropLast else here ++ [name])
    (if p.isAbsolute then [] else d.workingDirectory)

def refusal (path : String) : Obstacle → FileError
  | .missing => .notFound path
  | .notDirectory => .notDirectory path

def read (d : Disk) (p : Path) : Except FileError (List UInt8) :=
  match d.follow p.text with
  | .error obstacle => .error (refusal p.text obstacle)
  | .ok place =>
    match d.node? place with
    | some (.file content) => .ok content
    | some .directory => .error (.isDirectory p.text)
    | none => .error (.notFound p.text)

-- UTF-8, with its line ends brought to newlines.
def readText (d : Disk) (p : Path) : Except Failure (List Char) :=
  match d.read p with
  | .error e => .error (.file e)
  | .ok bytes =>
    match Text.Utf8.decode bytes with
    | .error fault => .error (.undecodable fault)
    | .ok text => .ok (Text.unifyNewlines text)

-- A path that ends in a slash can only mean a directory, whether there is one or not.
def write (d : Disk) (path : String) (content : List UInt8) : Except FileError Disk :=
  let name := Path.withoutFinalSlashes path
  match d.follow (if name = "" then path else name) with
  | .error obstacle => .error (refusal path obstacle)
  | .ok place =>
    if name ≠ path then .error (.isDirectory path)
    else match d.node? place with
      | some .directory => .error (.isDirectory path)
      | _ => .ok (d.put place (.file content))

end Disk

end RuneAsm
