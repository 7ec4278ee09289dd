import RuneAsm.Token

namespace RuneAsm

-- The serial number is that of the defining token.
structure Macro where
  id : Nat
  name : String
  location : Location
  body : List Token
deriving DecidableEq, Repr

structure MacroTable where
  entries : List Macro := []
  -- Bodies that captured definitions bring along from another table, by the serial number of the definition.
  carried : List (Nat × List Token) := []
deriving DecidableEq, Repr

namespace MacroTable

def toList (t : MacroTable) : List Macro := t.entries

def isEmpty (t : MacroTable) : Bool := t.entries.isEmpty

def find? (t : MacroTable) (name : String) : Option Macro := t.entries.find? (·.name = name)

def enter (t : MacroTable) (m : Macro) : MacroTable := { t with entries := t.entries ++ [m] }

-- Another definition under the same name is refused with the earlier one.
def define (t : MacroTable) (m : Macro) : Except Macro MacroTable :=
  match t.find? m.name with
  | none => .ok (t.enter m)
  | some earlier => if earlier.id = m.id then .ok t else .error earlier

-- A definition that the table has already is found there; the body matters for one from another table.
def broughtBy (t : MacroTable) (id : Nat) : List Token := (t.carried.lookup id).getD []

def bodyOf? (t : MacroTable) (kind : TokenKind) : Option (List Token) :=
  match kind with
  | .macroDefinition name true => (t.find? name).map (·.body)
  | _ => none

end MacroTable

end RuneAsm
