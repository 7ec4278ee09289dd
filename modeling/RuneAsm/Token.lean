import RuneAsm.Diagnostic
import RuneAsm.Opcode
import RuneAsm.Text.Quoted

namespace RuneAsm

-- A token has a serial number of its own, so that a copy of a token is another token, and a bracket knows the serial
-- number of its partner.

-- The relative modes store a distance, the other two the address itself.
inductive AddressingMode where
  | relative8
  | zeroPage
  | relative16
  | absolute
deriving DecidableEq, Repr

namespace AddressingMode

def name : AddressingMode → String
  | .relative8 => "relative-8"
  | .zeroPage => "zero-page"
  | .relative16 => "relative-16"
  | .absolute => "absolute"

def width : AddressingMode → Nat
  | .relative8 | .zeroPage => 1
  | .relative16 | .absolute => 2

def isRelative : AddressingMode → Bool
  | .relative8 | .relative16 => true
  | .zeroPage | .absolute => false

end AddressingMode

-- A call is a word without a rune, a subroutine a lone opening brace.
inductive ReferenceForm where
  | literalRelative
  | literalZeroPage
  | literalAbsolute
  | rawRelative
  | rawZeroPage
  | rawAbsolute
  | jumpConditional
  | jumpAlways
  | call
  | subroutine
deriving DecidableEq, Repr

namespace ReferenceForm

def mode : ReferenceForm → AddressingMode
  | .literalRelative | .rawRelative => .relative8
  | .literalZeroPage | .rawZeroPage => .zeroPage
  | .literalAbsolute | .rawAbsolute => .absolute
  | .jumpConditional | .jumpAlways | .call | .subroutine => .relative16

def instruction : ReferenceForm → Option String
  | .literalRelative | .literalZeroPage => some Opcode.literalByte
  | .literalAbsolute => some Opcode.literalShort
  | .rawRelative | .rawZeroPage | .rawAbsolute => none
  | .jumpConditional => some Opcode.jumpConditional
  | .jumpAlways => some Opcode.jumpAlways
  | .call | .subroutine => some Opcode.jumpSubroutine

def name : ReferenceForm → String
  | .literalRelative => "LITERAL_RELATIVE"
  | .literalZeroPage => "LITERAL_ZERO_PAGE"
  | .literalAbsolute => "LITERAL_ABSOLUTE"
  | .rawRelative => "RAW_RELATIVE"
  | .rawZeroPage => "RAW_ZERO_PAGE"
  | .rawAbsolute => "RAW_ABSOLUTE"
  | .jumpConditional => "JUMP_CONDITIONAL"
  | .jumpAlways => "JUMP_UNCONDITIONAL"
  | .call => "LABEL_REFERENCE"
  | .subroutine => "SUBROUTINE_OPEN"

end ReferenceForm

-- What a reference refers to: a label by its name, or the end of the inline subroutine that it opens, whose label is
-- known once its closing brace has been read.
inductive Target where
  | named (label : String)
  | inline (label : Option String)
deriving DecidableEq, Repr

def Target.label? : Target → Option String
  | .named label => some label
  | .inline label => label

structure Reference where
  form : ReferenceForm
  mode : AddressingMode
  instruction : Option String
  target : Target
deriving DecidableEq, Repr

def ReferenceForm.to (form : ReferenceForm) (target : Target) : Reference :=
  ⟨form, form.mode, form.instruction, target⟩

inductive Width where
  | byte
  | short
deriving DecidableEq, Repr

def Width.bytes : Width → Nat
  | .byte => 1
  | .short => 2

inductive TokenKind where
  | blank
  | comment
  | groupOpen
  | groupClose
  | opcode (value : Int)
  | rawHex (value : Int) (width : Width)
  | literalHex (value : Int) (width : Width)
  | rawText (data : List UInt8)
  | padAbsolute (position : Int)
  | padRelative (count : Int)
  | retarget (position : Int)
  -- The implied parent is the one that this label's name declares on the way.
  | parentLabel (label : String) (implied : Option String)
  | childLabel (label : String)
  | subroutineClose (label : String)
  | reference (reference : Reference)
  | inclusion (name : String)
  -- A definition is captured once its body has been taken out of the program.
  | macroDefinition (name : String) (captured : Bool)
deriving DecidableEq, Repr

namespace TokenKind

def name : TokenKind → String
  | .blank => "WHITESPACE"
  | .comment => "COMMENT"
  | .groupOpen => "GROUP_OPEN"
  | .groupClose => "GROUP_CLOSE"
  | .opcode _ => "OPCODE"
  | .rawHex _ _ => "RAW_HEX"
  | .literalHex _ _ => "LITERAL_HEX"
  | .rawText _ => "RAW_ASCII"
  | .padAbsolute _ => "PADDING_ABSOLUTE"
  | .padRelative _ => "PADDING_RELATIVE"
  | .retarget _ => "TARGET_POSITION"
  | .parentLabel _ _ => "LABEL_PARENT"
  | .childLabel _ => "LABEL_CHILD"
  | .subroutineClose _ => "SUBROUTINE_CLOSE"
  | .reference r => r.form.name
  | .inclusion _ => "INCLUDE"
  | .macroDefinition _ _ => "MACRO_DEFINITION"

-- Transparent tokens take no part in assembly.
def isTransparent : TokenKind → Bool
  | .blank | .comment | .groupOpen | .groupClose => true
  | _ => false

def isReference : TokenKind → Bool
  | .reference _ => true
  | _ => false

def isLabel : TokenKind → Bool
  | .parentLabel _ _ | .childLabel _ | .subroutineClose _ => true
  | _ => false

def label? : TokenKind → Option String
  | .parentLabel label _ | .childLabel label | .subroutineClose label => some label
  | .reference r => r.target.label?
  | _ => none

def bracket? : TokenKind → Option Char
  | .groupOpen => some '['
  | .groupClose => some ']'
  | .subroutineClose _ => some '\x7d'
  | .reference r =>
    match r.target with
    | .inline _ => some '\x7b'
    | .named _ => none
  | _ => none

def closer? : TokenKind → Option Char
  | .groupOpen => some ']'
  | .reference r =>
    match r.target with
    | .inline _ => some '\x7d'
    | .named _ => none
  | _ => none

-- Implied parents are no labels of their own.
def mapLabel (f : String → String) : TokenKind → TokenKind
  | .parentLabel label implied => .parentLabel (f label) implied
  | .childLabel label => .childLabel (f label)
  | .subroutineClose label => .subroutineClose (f label)
  | .reference r =>
    match r.target with
    | .named label => .reference { r with target := .named (f label) }
    | .inline label => .reference { r with target := .inline (label.map f) }
  | kind => kind

end TokenKind

structure Token where
  id : Nat
  kind : TokenKind
  text : String
  location : Location
  partner : Option Nat := none
deriving DecidableEq, Repr

namespace Token

def isTransparent (t : Token) : Bool := t.kind.isTransparent

def describe (t : Token) : String :=
  s!"Token({t.kind.name}, {Text.quoted t.text.toList}, {t.location.line}:{t.location.column})"

def source (tokens : List Token) : String := String.join (tokens.map (·.text))

def closedBy (opener : Token) (closer : Nat) (label : Option String) : Token :=
  match opener.kind with
  | .reference r => { opener with kind := .reference { r with target := .inline label }, partner := some closer }
  | _ => { opener with partner := some closer }

-- No word holds a space, so no label of a program has such a name.
def anonymousLabel (location : Location) : String := s!"<lambda {location.text}>"

end Token

end RuneAsm
