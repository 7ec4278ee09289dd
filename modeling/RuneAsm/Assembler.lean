import RuneAsm.Expander
import RuneAsm.Image
import RuneAsm.Layout
import RuneAsm.Listing

namespace RuneAsm

-- Every call starts from empty tables, so that one assembler can be used for several programs; what the latest call
-- produced, or left behind when it failed, can be asked for.

structure Assembler where
  settings : Settings := {}
  symbols : SymbolTable := {}
  journal : Journal := []
  tokens : List Token := []
  records : List Record := []
  code : Array UInt8 := #[]
  -- The records of the latest layout, also of one that failed; none before a layout was begun.
  drafted : Option (List Record) := none
  -- The counters of the latest call; none before the first.
  stats : Option Stats := none

namespace Assembler

def new (settings : Settings) (includePaths : List Path) : Assembler :=
  { settings := includePaths.foldl Settings.addIncludePath settings }

def note (a : Assembler) (event : Event) : Assembler := { a with journal := event :: a.journal }

-- Each call finds the settings alone.
def reset (a : Assembler) : Assembler := { settings := a.settings, stats := some {} }

def absorb (a : Assembler) (e : Expander) : Assembler :=
  { a with symbols := e.symbols, journal := e.journal, stats := some e.stats }

def draft (a : Assembler) (l : Layout) : Assembler :=
  { a with symbols := l.symbols, drafted := some l.records.toList }

def preprocessed (a : Assembler) : Event :=
  let stats := a.stats.getD {}
  .preprocessed a.tokens.length stats.includes stats.definitions stats.expansions

def emit (a : Assembler) : Run Assembler :=
  match ({} : Sink).emit a.settings.loadBase a.records with
  | .error stop => .fail a stop.failure
  | .ok emission =>
    let a := { a with code := emission.sink.content }
    .ok ((a.note (.emitted emission.written)).note (.generated a.code.size))

def build (a : Assembler) : Run Assembler :=
  let l : Layout := { loadBase := a.settings.loadBase, symbols := a.symbols }
  match l.linearize a.tokens with
  | .error stop => .fail (a.draft stop.state) stop.failure
  | .ok laid =>
    let operands := laid.records.toList.countP Record.isOperand
    let a := a.note (.linearized laid.records.size operands laid.output)
    match laid.resolve with
    | .error stop => .fail (a.draft stop.state) stop.failure
    | .ok resolved => { a.draft resolved with records := resolved.records.toList }.emit

def assembleWith (a : Assembler) (name : String) (expansion : Expander → Run Expander) : Run Assembler :=
  let a := a.reset.note (.assembling name)
  match expansion { journal := a.journal } with
  | .error stop => .fail (a.absorb stop.state) stop.failure
  | .ok e =>
    let a := { a.absorb e with tokens := e.program }
    (a.note a.preprocessed).build

def assembleSource (a : Assembler) (disk : Disk) (source : List Char) (file : String) : Run Assembler :=
  a.assembleWith file (Expander.processSource ⟨a.settings, disk⟩ source file)

def assembleFile (a : Assembler) (disk : Disk) (path : Path) : Run Assembler :=
  a.assembleWith path.text (Expander.processFile ⟨a.settings, disk⟩ path)

def warnings (a : Assembler) : List String := a.journal.warnings

def namedAddresses (a : Assembler) : List (String × Int) := a.symbols.addresses

-- The listing is empty before any layout.
def listing (a : Assembler) : Except Failure String :=
  match a.drafted with
  | none => .ok ""
  | some records => Listing.render records a.symbols

structure Result where
  ok : Bool
  code : Array UInt8
  symbols : List (String × Int)
  warnings : List String
  failure : Option Failure

-- A failed call has no code and no symbols.
def run (a : Assembler) (disk : Disk) (source : List Char) (file : String) : Result × Assembler :=
  match a.assembleSource disk source file with
  | .ok a => (⟨true, a.code, a.namedAddresses, a.warnings, none⟩, a)
  | .error stop =>
    (⟨false, #[], [], stop.state.warnings, some stop.failure⟩, stop.state)

structure Written where
  assembler : Assembler
  disk : Disk

-- The image goes under the normal form of its path, the two other files under the path as it is written.
def writeImage (a : Assembler) (disk : Disk) (path : String) : Run Written :=
  match disk.write (Path.ofString path).text a.code.toList with
  | .error e => .fail ⟨a, disk⟩ (.file e)
  | .ok disk => .ok ⟨a.note (.wroteImage a.code.size path), disk⟩

def writeSymbols (a : Assembler) (disk : Disk) (path : String) : Run Written :=
  match disk.write path (Text.Utf8.encode (SymbolFile.render a.symbols).toList) with
  | .error e => .fail ⟨a, disk⟩ (.file e)
  | .ok disk => .ok ⟨a.note (.wroteSymbols path), disk⟩

-- The file is emptied first, and stays empty if there is no listing.
def writeListing (a : Assembler) (disk : Disk) (path : String) : Run Written :=
  match disk.write path [] with
  | .error e => .fail ⟨a, disk⟩ (.file e)
  | .ok emptied =>
    match a.listing with
    | .error f => .fail ⟨a, emptied⟩ f
    | .ok text =>
      match disk.write path (Text.Utf8.encode text.toList) with
      | .error e => .fail ⟨a, disk⟩ (.file e)
      | .ok disk => .ok ⟨a.note (.wroteListing path), disk⟩

end Assembler

def assemble (disk : Disk) (source : List Char) (file : String) : Except Failure (Array UInt8) :=
  match ({} : Assembler).assembleSource disk source file with
  | .ok a => .ok a.code
  | .error stop => .error stop.failure

def assembleFile (disk : Disk) (path : Path) : Except Failure (Array UInt8) :=
  match ({} : Assembler).assembleFile disk path with
  | .ok a => .ok a.code
  | .error stop => .error stop.failure

end RuneAsm
