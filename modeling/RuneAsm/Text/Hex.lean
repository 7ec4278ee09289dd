namespace RuneAsm.Text

-- Hexadecimal numerals. A number is written with the fewest digits that show it, filled with zeros to a width that
-- counts its sign. A numeral is read in lower case only, so that a capital letter never starts one.

def hexDigit (upper : Bool) (n : Nat) : Char :=
  if n < 10 then Char.ofNat (48 + n) else Char.ofNat ((if upper then 55 else 87) + n)

def hexDigits (upper : Bool) (n : Nat) : List Char :=
  if n < 16 then [hexDigit upper n] else hexDigits upper (n / 16) ++ [hexDigit upper (n % 16)]
termination_by n

def zeroFilled (width : Nat) (digits : List Char) : List Char :=
  List.replicate (width - digits.length) '0' ++ digits

-- The sign comes first, and zeros stand between it and the digits up to the width.
def hexNumeral (upper : Bool) (width : Nat) (z : Int) : String :=
  if z < 0 then String.ofList ('-' :: zeroFilled (width - 1) (hexDigits upper z.natAbs))
  else String.ofList (zeroFilled width (hexDigits upper z.natAbs))

-- Addresses are shown in messages and listings with at least four lower-case digits.
def address (z : Int) : String := hexNumeral false 4 z

def byteNumeral (b : UInt8) : String := hexNumeral false 2 b.toNat

def hexValue? (c : Char) : Option Nat :=
  if '0' ≤ c ∧ c ≤ '9' then some (c.toNat - 48)
  else if 'a' ≤ c ∧ c ≤ 'f' then some (c.toNat - 87)
  else none

def readHex? (digits : List Char) : Option Nat :=
  if digits.isEmpty then none
  else digits.foldlM (fun value c => (hexValue? c).map (16 * value + ·)) 0

end RuneAsm.Text
