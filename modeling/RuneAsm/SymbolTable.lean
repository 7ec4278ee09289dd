import RuneAsm.Diagnostic
import RuneAsm.Text.Similar

namespace RuneAsm

-- Names stand in the order in which they entered the table, each at most once.

structure Symbol where
  name : String
  location : Location
  address : Option Int := none
  anonymous : Bool := false
deriving DecidableEq, Repr

structure SymbolTable where
  entries : List Symbol := []
deriving DecidableEq, Repr

namespace SymbolTable

def empty : SymbolTable := {}

def toList (t : SymbolTable) : List Symbol := t.entries

def size (t : SymbolTable) : Nat := t.entries.length

def find? (t : SymbolTable) (name : String) : Option Symbol := t.entries.find? (·.name = name)

def contains (t : SymbolTable) (name : String) : Bool := t.entries.any (·.name = name)

-- A name already there is refused with its earlier entry.
def define (t : SymbolTable) (name : String) (location : Location) (anonymous : Bool) :
    Except Symbol SymbolTable :=
  match t.find? name with
  | some earlier => .error earlier
  | none => .ok ⟨t.entries ++ [⟨name, location, none, anonymous⟩]⟩

def erase (t : SymbolTable) (name : String) : SymbolTable := ⟨t.entries.filter (·.name ≠ name)⟩

def modifyAddress (t : SymbolTable) (name : String) (address : Int) : SymbolTable :=
  ⟨t.entries.map (fun s => if s.name = name then { s with address := some address } else s)⟩

-- A label is placed once; a name that was never declared enters the table.
def place (t : SymbolTable) (name : String) (address : Int) (location : Location) :
    Except Symbol SymbolTable :=
  match t.find? name with
  | none => .ok ⟨t.entries ++ [⟨name, location, some address, false⟩]⟩
  | some s =>
    match s.address with
    | some _ => .error s
    | none => .ok (t.modifyAddress name address)

def addressOf? (t : SymbolTable) (name : String) : Option Int := (t.find? name).bind (·.address)

def clearAddresses (t : SymbolTable) : SymbolTable :=
  ⟨t.entries.map (fun s => { s with address := none })⟩

-- For the hints on mistyped labels.
def similar (t : SymbolTable) (name : String) (limit : Nat) : List String :=
  Text.closeNames name ((t.entries.filter (!·.anonymous)).map (·.name)) limit

-- A limit given from outside has to be positive.
def similar? (t : SymbolTable) (name : String) (limit : Int) : Option (List String) :=
  if limit ≤ 0 then none else some (t.similar name limit.toNat)

def addresses (t : SymbolTable) : List (String × Int) :=
  t.entries.filterMap (fun s => if s.anonymous then none else s.address.map (s.name, ·))

end SymbolTable

end RuneAsm
