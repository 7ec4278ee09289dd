import RuneAsm.Record
import RuneAsm.Text.Hex

namespace RuneAsm

-- The listing has a line for each token that put bytes into the image, the symbol file one for each named label.

-- Widths count code points, and a text longer than its column is kept whole.
def Text.padRight (width : Nat) (text : String) : String :=
  text ++ String.ofList (List.replicate (width - text.length) ' ')

def Text.padLeft (width : Nat) (text : String) : String :=
  String.ofList (List.replicate (width - text.length) ' ') ++ text

namespace Listing

structure Group where
  position : Int
  data : List UInt8
  token : Option Token
deriving DecidableEq, Repr

-- A record joins the group before it when both come from the same token.
def join (groups : List Group) (r : Record) (data : List UInt8) : List Group :=
  match groups, r.token? with
  | g :: rest, some t =>
    if g.token.map (·.id) = some t.id then { g with data := g.data ++ data } :: rest
    else ⟨r.position, data, some t⟩ :: g :: rest
  | groups, token => ⟨r.position, data, token⟩ :: groups

-- The latest first.
def groupsOnto : List Group → List Record → Except Failure (List Group)
  | groups, [] => .ok groups
  | groups, r :: rest =>
    match r.data with
    | .error f => .error f
    | .ok data => groupsOnto (join groups r data) rest

def groups (records : List Record) : Except Failure (List Group) :=
  match groupsOnto [] records with
  | .ok groups => .ok groups.reverse
  | .error f => .error f

-- The first four bytes, and a mark if there are more.
def code (data : List UInt8) : String :=
  " ".intercalate ((data.take 4).map Text.byteNumeral) ++ (if 4 < data.length then " .." else "")

def Group.line (g : Group) : String :=
  let number := match g.token with
    | some t => t.location.line
    | none => 0
  let text := match g.token with
    | some t => t.text
    | none => ""
  s!"{Text.address g.position}  {Text.padRight 12 (code g.data)}  {Text.padLeft 4 (toString number)}  {text}"

def sorted (addresses : List (String × Int)) : List (String × Int) :=
  addresses.mergeSort (fun a b => decide (a.1 ≤ b.1))

def symbolLine (entry : String × Int) : String :=
  s!"{Text.padRight 20 entry.1} = ${Text.address entry.2}"

def rule (c : Char) (width : Nat) : String := String.ofList (List.replicate width c)

def heading : List String :=
  ["talasm Listing", rule '=' 60, "", "Addr  Code          Line  Source", rule '-' 60]

-- An operand without a value cannot be listed.
def render (records : List Record) (symbols : SymbolTable) : Except Failure String :=
  match groups records with
  | .error f => .error f
  | .ok groups =>
    .ok ("\n".intercalate (heading ++ groups.map Group.line ++ ["", "Symbol Table", rule '-' 30] ++
      (sorted symbols.addresses).map symbolLine))

end Listing

namespace SymbolFile

def header : List String := ["# Symbol table", "# Generated by talasm"]

def line (entry : String × Int) : String := s!"{entry.1} ${Text.hexNumeral true 4 entry.2}"

def render (symbols : SymbolTable) : String :=
  String.join ((header ++ (Listing.sorted symbols.addresses).map line).map (· ++ "\n"))

end SymbolFile

end RuneAsm
