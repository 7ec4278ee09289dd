import RuneAsm.Failure
import RuneAsm.SymbolTable
import RuneAsm.Token

namespace RuneAsm

-- The operand of a reference is a record whose value is filled in once all labels have addresses.

def byteOf (value : Int) : Except Failure (List UInt8) :=
  if 0 ≤ value ∧ value < 0x100 then .ok [UInt8.ofNat value.toNat] else .error (.byteRange value)

-- The high one first.
def shortOf (value : Int) : Except Failure (List UInt8) :=
  if 0 ≤ value ∧ value < 0x10000 then
    .ok [UInt8.ofNat (value.toNat / 0x100), UInt8.ofNat (value.toNat % 0x100)]
  else .error (.shortRange value)

def Width.bytesOf : Width → Int → Except Failure (List UInt8)
  | .byte => byteOf
  | .short => shortOf

structure Operand where
  position : Int
  label : String
  mode : AddressingMode
  -- The address of the operand as the program sees it, from which relative modes measure.
  target : Int
  token : Token
  value : Option Int := none
deriving DecidableEq, Repr

namespace Operand

def size (o : Operand) : Nat := o.mode.width

def data (o : Operand) : Except Failure (List UInt8) :=
  match o.value with
  | none => .error (.report ⟨.output (.unresolved o.label), some o.token.location, none⟩)
  | some value => if o.size = 1 then byteOf value else shortOf value

-- An operand is resolved once.
def resolve (o : Operand) (value : Int) : Except Failure Operand :=
  match o.value with
  | none => .ok { o with value := some value }
  | some _ => .error (.report ⟨.resolvedTwice o.label, some o.token.location, none⟩)

-- Relative modes measure from the instruction after the operand, which they place two bytes on.
def relativeBias : Int := 2

def outOfRange (o : Operand) (value : Int) : Failure :=
  .report ⟨.referenceRange o.label value o.mode.name, some o.token.location, none⟩

def valueFor (o : Operand) (address : Int) : Except Failure Int :=
  let distance := address - o.target - relativeBias
  match o.mode with
  | .relative8 =>
    if -0x80 ≤ distance ∧ distance ≤ 0xFF then .ok (distance % 0x100) else .error (o.outOfRange distance)
  | .relative16 => .ok (distance % 0x10000)
  | .zeroPage => if 0 ≤ address ∧ address ≤ 0xFF then .ok address else .error (o.outOfRange address)
  | .absolute => .ok (address % 0x10000)

-- A label that is declared but has no address stands in a part of the program that was never assembled.
def undefined (o : Operand) (symbols : SymbolTable) : Failure :=
  let note := (symbols.find? o.label).map
    (fun s => s!"'{o.label}' is defined at {s.location.text} but never assembled")
  .report ⟨.undefinedLabel o.label note (symbols.similar o.label 3), some o.token.location, none⟩

def resolveIn (o : Operand) (symbols : SymbolTable) : Except Failure Operand :=
  match symbols.addressOf? o.label with
  | none => .error (o.undefined symbols)
  | some address =>
    match o.valueFor address with
    | .error f => .error f
    | .ok value => o.resolve value

end Operand

inductive Record where
  | bytes (position : Int) (data : List UInt8) (token : Option Token)
  | operand (operand : Operand)
deriving DecidableEq, Repr

namespace Record

def position : Record → Int
  | .bytes position _ _ => position
  | .operand o => o.position

def size : Record → Nat
  | .bytes _ data _ => data.length
  | .operand o => o.size

def token? : Record → Option Token
  | .bytes _ _ token => token
  | .operand o => some o.token

def data : Record → Except Failure (List UInt8)
  | .bytes _ data _ => .ok data
  | .operand o => o.data

def isOperand : Record → Bool
  | .bytes _ _ _ => false
  | .operand _ => true

def resolveIn (symbols : SymbolTable) : Record → Except Failure Record
  | .operand o =>
    match o.resolveIn symbols with
    | .ok o => .ok (.operand o)
    | .error f => .error f
  | r => .ok r

end Record

end RuneAsm
