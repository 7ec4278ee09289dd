import RuneAsm.Text.Hex

namespace RuneAsm.Text.Utf8

-- Decoding goes byte by byte and keeps the sequence under way, so that a fault names exactly the bytes of a sequence
-- that had been well formed, or one byte that can start none.

inductive Reason where
  | badStart
  | badContinuation
  | truncated
deriving DecidableEq, Repr

def Reason.text : Reason → String
  | .badStart => "invalid start byte"
  | .badContinuation => "invalid continuation byte"
  | .truncated => "unexpected end of data"

structure Fault where
  position : Nat
  bytes : List UInt8
  reason : Reason
deriving DecidableEq, Repr

def Fault.message (fault : Fault) : String :=
  match fault.bytes with
  | [b] => s!"'utf-8' codec can't decode byte 0x{byteNumeral b} in position {fault.position}: {fault.reason.text}"
  | bytes =>
    let last := fault.position + bytes.length - 1
    s!"'utf-8' codec can't decode bytes in position {fault.position}-{last}: {fault.reason.text}"

-- A sequence under way: the bytes still to come, the bounds of the next one, and what was read.
structure Sequence where
  missing : Nat
  low : UInt8
  high : UInt8
  value : Nat
  seen : List UInt8

-- The second byte is bounded more tightly after E0, ED, F0 and F4: no overlong form, no surrogate, nothing
-- above 10FFFF.
def Sequence.start? (b : UInt8) : Option Sequence :=
  if b < 0xC2 then none
  else if b < 0xE0 then some ⟨1, 0x80, 0xBF, b.toNat - 0xC0, [b]⟩
  else if b < 0xF0 then
    some ⟨2, if b = 0xE0 then 0xA0 else 0x80, if b = 0xED then 0x9F else 0xBF, b.toNat - 0xE0, [b]⟩
  else if b < 0xF5 then
    some ⟨3, if b = 0xF0 then 0x90 else 0x80, if b = 0xF4 then 0x8F else 0xBF, b.toNat - 0xF0, [b]⟩
  else none

structure Decoder where
  position : Nat
  pending : Option Sequence
  out : Array Char

def Decoder.step (d : Decoder) (b : UInt8) : Except Fault Decoder :=
  match d.pending with
  | none =>
    if b < 0x80 then .ok { d with position := d.position + 1, out := d.out.push (Char.ofNat b.toNat) }
    else match Sequence.start? b with
      | some sequence => .ok { d with position := d.position + 1, pending := some sequence }
      | none => .error ⟨d.position, [b], .badStart⟩
  | some s =>
    if s.low ≤ b ∧ b ≤ s.high then
      let value := 64 * s.value + (b.toNat - 0x80)
      if s.missing ≤ 1 then
        .ok { position := d.position + 1, pending := none, out := d.out.push (Char.ofNat value) }
      else
        .ok { d with
          position := d.position + 1
          pending := some ⟨s.missing - 1, 0x80, 0xBF, value, s.seen ++ [b]⟩ }
    else .error ⟨d.position - s.seen.length, s.seen, .badContinuation⟩

def decode (bytes : List UInt8) : Except Fault (List Char) := do
  let d ← bytes.foldlM Decoder.step ⟨0, none, #[]⟩
  match d.pending with
  | none => .ok d.out.toList
  | some s => .error ⟨d.position - s.seen.length, s.seen, .truncated⟩

def encode (text : List Char) : List UInt8 := text.flatMap String.utf8EncodeChar

end RuneAsm.Text.Utf8

namespace RuneAsm.Text

-- Only the newline character ends a line here; a file that ends its lines in another way is brought to that form when
-- it is read.

-- Always one more than there are newlines.
def lines (text : List Char) : List (List Char) :=
  text.foldr
    (fun c pieces =>
      if c = '\n' then [] :: pieces
      else match pieces with
        | [] => [[c]]
        | first :: rest => (c :: first) :: rest)
    [[]]

-- The flag remembers that the last character was a carriage return, already written as a newline.
def unifyStep : Bool × Array Char → Char → Bool × Array Char
  | (afterReturn, out), c =>
    if c = '\r' then (true, out.push '\n')
    else if c = '\n' && afterReturn then (false, out)
    else (false, out.push c)

-- A carriage return, alone or before a newline, becomes one newline.
def unifyNewlines (text : List Char) : List Char := (text.foldl unifyStep (false, #[])).2.toList

end RuneAsm.Text
