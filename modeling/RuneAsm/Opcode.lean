namespace RuneAsm.Opcode

-- A byte is one of thirty-two operations in its low five bits and three mode flags above them. The slots of operation
-- zero hold the instructions that take their operand from the code.

-- In the order of their numbers.
def operations : List String :=
  ["BRK", "INC", "POP", "NIP", "SWP", "ROT", "DUP", "OVR", "EQU", "NEQ", "GTH", "LTH", "JMP", "JCN",
    "JSR", "STH", "LDZ", "STZ", "LDR", "STR", "LDA", "STA", "DEI", "DEO", "ADD", "SUB", "MUL", "DIV",
    "AND", "ORA", "EOR", "SFT"]

-- The instructions in the slots of operation zero, in the order of their flag bits.
def immediates : List String := ["BRK", "JCI", "JMI", "JSI", "LIT", "LIT2", "LITr", "LIT2r"]

-- In the order of the canonical spelling.
def flags : List (Char × Nat) := [('2', 0x20), ('k', 0x80), ('r', 0x40)]

def flagBit? (c : Char) : Option Nat := flags.lookup c

-- In any order, none of them twice.
def flagBits? : List Char → Option Nat
  | [] => some 0
  | c :: rest => do
    let bit ← flagBit? c
    let bits ← flagBits? rest
    if bits &&& bit = 0 then some (bits + bit) else none

-- The literal instruction has a second spelling with its two flags the other way round.
def immediate? (mnemonic : String) : Option Nat :=
  if mnemonic = "LITr2" then some 0xE0
  else (immediates.findIdx? (· = mnemonic)).map (0x20 * ·)

def operation? (name : String) : Option Nat := operations.findIdx? (· = name)

-- Operation zero takes no flags: its slots are the immediate instructions.
def flagged? (mnemonic : String) : Option Nat := do
  let chars := mnemonic.toList
  let number ← operation? (String.ofList (chars.take 3))
  if number = 0 then none else
    let bits ← flagBits? (chars.drop 3)
    some (bits + number)

-- Whatever the order of its flags.
def ofMnemonic? (mnemonic : String) : Option UInt8 :=
  ((immediate? mnemonic).or (flagged? mnemonic)).map UInt8.ofNat

def flagText (byte : Nat) : String :=
  String.ofList ((flags.filter (fun flag => byte &&& flag.2 ≠ 0)).map (·.1))

def mnemonic (byte : UInt8) : String :=
  let n := byte.toNat
  if n % 0x20 = 0 then immediates.getD (n / 0x20) "" else operations.getD (n % 0x20) "" ++ flagText n

-- The instructions that runes and references stand for.
def literalByte : String := "LIT"

def literalShort : String := "LIT2"

def jumpConditional : String := "JCI"

def jumpAlways : String := "JMI"

def jumpSubroutine : String := "JSI"

end RuneAsm.Opcode
