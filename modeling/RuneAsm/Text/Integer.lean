namespace RuneAsm.Text

-- Integers written by people: spaces around, an optional sign, digits of any script, and single underscores between
-- digits. In base sixteen the letters count in both cases and a leading 0x is allowed.

-- The zero of each set of decimal digits in Unicode 14.0; its nine successors follow it.
def decimalZeros : List Nat :=
  [0x30, 0x660, 0x6F0, 0x7C0, 0x966, 0x9E6, 0xA66, 0xAE6, 0xB66, 0xBE6, 0xC66, 0xCE6, 0xD66, 0xDE6,
    0xE50, 0xED0, 0xF20, 0x1040, 0x1090, 0x17E0, 0x1810, 0x1946, 0x19D0, 0x1A80, 0x1A90, 0x1B50,
    0x1BB0, 0x1C40, 0x1C50, 0xA620, 0xA8D0, 0xA900, 0xA9D0, 0xA9F0, 0xAA50, 0xABF0, 0xFF10, 0x104A0,
    0x10D30, 0x11066, 0x110F0, 0x11136, 0x111D0, 0x112F0, 0x11450, 0x114D0, 0x11650, 0x116C0,
    0x11730, 0x118E0, 0x11950, 0x11C50, 0x11D50, 0x11DA0, 0x16A60, 0x16AC0, 0x16B50, 0x1D7CE,
    0x1D7D8, 0x1D7E2, 0x1D7EC, 0x1D7F6, 0x1E140, 0x1E2F0, 0x1E950, 0x1FBF0]

def decimalValue? (c : Char) : Option Nat :=
  (decimalZeros.find? (fun first => first ≤ c.toNat && c.toNat < first + 10)).map (c.toNat - ·)

-- Spaces that may stand around a number. The ASCII separators 1C to 1F are not among them.
def isSpaceAround (c : Char) : Bool :=
  [0x9, 0xA, 0xB, 0xC, 0xD, 0x20, 0x85, 0xA0, 0x1680, 0x2028, 0x2029, 0x202F, 0x205F, 0x3000].contains
    c.toNat || (0x2000 ≤ c.toNat && c.toNat ≤ 0x200A)

def trimSpaces (text : List Char) : List Char :=
  ((text.dropWhile isSpaceAround).reverse.dropWhile isSpaceAround).reverse

-- How numbers of one base are written: the value of a digit, the marks that may come first, and how many digits are
-- accepted at most.
structure Radix where
  base : Nat
  digit? : Char → Option Nat
  marks : List Char
  maxDigits : Option Nat

def letterValue? (c : Char) : Option Nat :=
  if 'a' ≤ c ∧ c ≤ 'f' then some (c.toNat - 87)
  else if 'A' ≤ c ∧ c ≤ 'F' then some (c.toNat - 55)
  else none

-- Decimal numbers are refused past 4300 digits, leading zeros included.
def Radix.ten : Radix := ⟨10, decimalValue?, [], some 4300⟩

def Radix.sixteen : Radix :=
  ⟨16, fun c => (decimalValue? c).or (letterValue? c), ['x', 'X'], none⟩

-- An underscore stands between two digits.
def Radix.digits? (radix : Radix) : List Char → Option (List Nat)
  | [] => none
  | [c] => (radix.digit? c).map ([·])
  | c :: '_' :: rest => do return (← radix.digit? c) :: (← radix.digits? rest)
  | c :: rest => do return (← radix.digit? c) :: (← radix.digits? rest)

-- After the mark an underscore may come before the first digit.
def Radix.withoutMark (radix : Radix) (text : List Char) : List Char :=
  match text with
  | first :: mark :: rest =>
    if decimalValue? first = some 0 ∧ mark ∈ radix.marks then
      match rest with
      | '_' :: digits => digits
      | digits => digits
    else text
  | _ => text

def Radix.natural? (radix : Radix) (text : List Char) : Option Nat := do
  let digits ← radix.digits? (radix.withoutMark text)
  match radix.maxDigits with
  | some most => if most < digits.length then none
  | none => pure ()
  return digits.foldl (fun value d => radix.base * value + d) 0

def readInteger? (radix : Radix) (text : String) : Option Int :=
  match trimSpaces text.toList with
  | '-' :: digits => (radix.natural? digits).map (fun n => -(n : Int))
  | '+' :: digits => (radix.natural? digits).map (fun n => (n : Int))
  | digits => (radix.natural? digits).map (fun n => (n : Int))

end RuneAsm.Text
