namespace RuneAsm

-- Empty names and single dots are dropped, double dots are kept, because what they lead to depends on the directories
-- that exist.

-- The root is empty for a relative path; a path that starts with exactly two slashes keeps both.
structure Path where
  root : String
  parts : List String
deriving DecidableEq, Repr

namespace Path

def splitSlashes (text : String) : List String :=
  (text.toList.foldr
    (fun c pieces =>
      if c = '/' then [] :: pieces
      else match pieces with
        | [] => [[c]]
        | first :: rest => (c :: first) :: rest)
    [[]]).map String.ofList

def rootOf (text : String) : String :=
  match text.toList with
  | '/' :: '/' :: '/' :: _ => "/"
  | '/' :: '/' :: _ => "//"
  | '/' :: _ => "/"
  | _ => ""

def withoutFinalSlashes (text : String) : String :=
  String.ofList (text.toList.reverse.dropWhile (· = '/')).reverse

def ofString (text : String) : Path :=
  ⟨rootOf text, (splitSlashes text).filter (fun part => part ≠ "" ∧ part ≠ ".")⟩

def text (p : Path) : String :=
  if p.root = "" ∧ p.parts = [] then "." else p.root ++ "/".intercalate p.parts

def isAbsolute (p : Path) : Bool := p.root ≠ ""

-- An absolute path stays what it is.
def join (base below : Path) : Path :=
  if below.isAbsolute then below else ⟨base.root, base.parts ++ below.parts⟩

def parent (p : Path) : Path := ⟨p.root, p.parts.dropLast⟩

-- A name's suffix starts at its last dot, provided that the dot is neither its first nor its last character.
def stem (name : String) : String :=
  let backwards := name.toList.reverse
  let after := backwards.takeWhile (· ≠ '.')
  let before := (backwards.dropWhile (· ≠ '.')).drop 1
  if after.isEmpty ∨ before.isEmpty then name else String.ofList before.reverse

def withSuffix (p : Path) (suffix : String) : Path :=
  match p.parts.getLast? with
  | none => p
  | some name => ⟨p.root, p.parts.dropLast ++ [stem name ++ suffix]⟩

end Path

end RuneAsm
