import RuneAsm.Record

namespace RuneAsm

-- A walk over the tokens moves the output position, gives labels their addresses and makes the records; then every
-- operand is looked up. Addresses follow the output position, or run apart from it where the program says that the code
-- is meant for another place.

structure Layout where
  loadBase : Int
  symbols : SymbolTable
  records : Array Record := #[]
  output : Int := loadBase
  -- Added to the output position to give an address.
  offset : Int := 0

namespace Layout

-- The address of the next byte as the program sees it.
def target (l : Layout) : Int := l.output + l.offset

-- The declarations stay, the addresses go.
def restart (l : Layout) : Layout :=
  { loadBase := l.loadBase, symbols := l.symbols.clearAddresses }

def emit (l : Layout) (data : List UInt8) (t : Token) : Layout :=
  { l with
    records := l.records.push (.bytes l.output data (some t))
    output := l.output + data.length }

def emitNumber (l : Layout) (value : Int) (width : Width) (t : Token) : Run Layout :=
  match width.bytesOf value with
  | .ok data => .ok (l.emit data t)
  | .error f => .fail l f

def emitInstruction (l : Layout) (mnemonic : String) (t : Token) : Run Layout :=
  match Opcode.ofMnemonic? mnemonic with
  | some byte => .ok (l.emit [byte] t)
  | none => .fail l (.unknownMnemonic mnemonic)

def placeLabel (l : Layout) (name : String) (t : Token) : Run Layout :=
  match l.symbols.place name l.target t.location with
  | .ok symbols => .ok { l with symbols }
  | .error earlier =>
    .fail l (.report ⟨.duplicateLabel name (some earlier.location), some t.location, none⟩)

def emitOperand (l : Layout) (label : String) (mode : AddressingMode) (t : Token) : Layout :=
  { l with
    records := l.records.push (.operand ⟨l.output, label, mode, l.target, t, none⟩)
    output := l.output + mode.width }

def emitReference (l : Layout) (r : Reference) (t : Token) : Run Layout :=
  match r.target.label? with
  | none => .fail l (.report ⟨.unlabelledReference t.text, some t.location, none⟩)
  | some label =>
    match r.instruction with
    | none => .ok (l.emitOperand label r.mode t)
    | some mnemonic =>
      (l.emitInstruction mnemonic t).andThen fun l => .ok (l.emitOperand label r.mode t)

def literalInstruction : Width → String
  | .byte => Opcode.literalByte
  | .short => Opcode.literalShort

def step (l : Layout) (t : Token) : Run Layout :=
  match t.kind with
  | .blank | .comment | .groupOpen | .groupClose => .ok l
  | .padRelative count => .ok { l with output := l.output + count }
  | .padAbsolute position => .ok { l with output := position, offset := 0 }
  | .retarget position => .ok { l with offset := position - l.output }
  | .parentLabel label none => l.placeLabel label t
  | .parentLabel label (some implied) => (l.placeLabel implied t).andThen fun l => l.placeLabel label t
  | .childLabel label => l.placeLabel label t
  | .subroutineClose label => l.placeLabel label t
  | .literalHex value width =>
    (l.emitInstruction (literalInstruction width) t).andThen fun l => l.emitNumber value width t
  | .rawHex value width => l.emitNumber value width t
  | .rawText data => .ok (l.emit data t)
  | .opcode value => l.emitNumber value .byte t
  | .reference r => l.emitReference r t
  | .macroDefinition _ _ => .ok l
  | .inclusion _ =>
    .fail l (.report ⟨.unexpectedToken t.kind.name.toLower t.text, some t.location, none⟩)

def linearize (l : Layout) (tokens : List Token) : Run Layout := Run.each step l.restart tokens

def resolveRecord (l : Layout) (r : Record) : Run Layout :=
  match r.resolveIn l.symbols with
  | .ok r => .ok { l with records := l.records.push r }
  | .error f => .fail { l with records := l.records.push r } f

-- The records that come after a failure are kept as they are.
def resolveRecords (l : Layout) : List Record → Run Layout
  | [] => .ok l
  | r :: rest =>
    match l.resolveRecord r with
    | .ok l => resolveRecords l rest
    | .error stop => .fail { stop.state with records := stop.state.records ++ rest } stop.failure

def resolve (l : Layout) : Run Layout := resolveRecords { l with records := #[] } l.records.toList

def generate (l : Layout) (tokens : List Token) : Run Layout := (l.linearize tokens).andThen resolve

end Layout

end RuneAsm
