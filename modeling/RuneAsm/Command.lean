import RuneAsm.Assembler
import RuneAsm.Text.Controls

namespace RuneAsm.Command

-- Options may stand before and after the input file. Each value is checked in the order in which the options were
-- given, the input file last.

-- As it appears on a stream that is no screen.
def say (text : String) : String := Text.withoutControls text

inductive Setting where
  | output
  | symbols
  | listing
  | includes
  | tokens
  | verbose
  | version
  | help
deriving DecidableEq, Repr

namespace Setting

def all : List Setting := [.output, .symbols, .listing, .includes, .tokens, .verbose, .version, .help]

def short? : Setting → Option Char
  | .output => some 'o'
  | .symbols => some 's'
  | .listing => some 'l'
  | .includes => some 'I'
  | .verbose => some 'v'
  | .tokens | .version | .help => none

def long : Setting → String
  | .output => "--output"
  | .symbols => "--symbols"
  | .listing => "--listing"
  | .includes => "--include"
  | .tokens => "--tokens"
  | .verbose => "--verbose"
  | .version => "--version"
  | .help => "--help"

def takesValue : Setting → Bool
  | .output | .symbols | .listing | .includes => true
  | .tokens | .verbose | .version | .help => false

def ofLong? (name : String) : Option Setting := all.find? (·.long = name)

def ofShort? (c : Char) : Option Setting := all.find? (·.short? = some c)

def title (s : Setting) : String :=
  match s.short? with
  | some c => s!"'-{c}' / '{s.long}'"
  | none => s!"'{s.long}'"

end Setting

inductive Usage where
  | noSuchOption (name : String) (possible : List String)
  | missingValue (name : String)
  | needlessValue (name : String)
  | missingInput
  | invalid (what : String) (reason : String)
  | extraArguments (arguments : List String)
deriving DecidableEq, Repr

namespace Usage

def text : Usage → String
  | .noSuchOption name [] => s!"No such option: {name}"
  | .noSuchOption name [one] => s!"No such option: {name} Did you mean {one}?"
  | .noSuchOption name several =>
    let names := ", ".intercalate several
    s!"No such option: {name} (Possible options: {names})"
  | .missingValue name => s!"Option {Text.quoted name.toList} requires an argument."
  | .needlessValue name => s!"Option {Text.quoted name.toList} does not take a value."
  | .missingInput => "Missing argument 'INPUT_FILE'."
  | .invalid what reason => s!"Invalid value for {what}: {reason}"
  | .extraArguments [one] => s!"Got unexpected extra argument ({one})"
  | .extraArguments several =>
    let arguments := " ".intercalate several
    s!"Got unexpected extra arguments ({arguments})"

def synopsis : String := "Usage: talasm [OPTIONS] INPUT_FILE\n"

-- A fault in the value of a single option is told in one line; the others come after a reminder of the usage.
def notice (u : Usage) : String :=
  match u with
  | .missingValue _ | .needlessValue _ => say s!"Error: {u.text}\n"
  | _ => synopsis ++ "Try 'talasm --help' for help.\n\n" ++ say s!"Error: {u.text}\n"

end Usage

structure Scan where
  -- In order, each with its value if it takes one.
  given : List (Setting × String) := []
  positional : List String := []
  -- An option that waits for its value, under the name it was given.
  waiting : Option (Setting × String) := none
  -- After a double dash no argument is an option.
  plain : Bool := false

namespace Scan

def give (s : Scan) (setting : Setting) (value : String) : Scan :=
  { s with given := s.given ++ [(setting, value)] }

-- The letters of one argument, each an option; one that takes a value takes the letters after it, or else the next
-- argument.
def letters : Scan → List Char → Except Usage Scan
  | s, [] => .ok s
  | s, c :: rest =>
    match Setting.ofShort? c with
    | none => .error (.noSuchOption s!"-{c}" [])
    | some setting =>
      if setting.takesValue then
        if rest.isEmpty then .ok { s with waiting := some (setting, s!"-{c}") }
        else .ok (s.give setting (String.ofList rest))
      else letters (s.give setting "") rest

-- An option in full spelling, with the text after its equals sign, if there is one.
def word (s : Scan) (name : String) (value : Option String) : Except Usage Scan :=
  match Setting.ofLong? name with
  | none =>
    .error (.noSuchOption name
      ((Text.closeNames name (Setting.all.map Setting.long) 3).mergeSort (fun a b => decide (a ≤ b))))
  | some setting =>
    match setting.takesValue, value with
    | true, some value => .ok (s.give setting value)
    | true, none => .ok { s with waiting := some (setting, name) }
    | false, some _ => .error (.needlessValue name)
    | false, none => .ok (s.give setting "")

def step (s : Scan) (argument : String) : Except Usage Scan :=
  match s.waiting with
  | some (setting, _) => .ok { s.give setting argument with waiting := none }
  | none =>
    if s.plain then .ok { s with positional := s.positional ++ [argument] }
    else if argument = "--" then .ok { s with plain := true }
    else match argument.toList with
      | '-' :: '-' :: _ =>
        let name := argument.toList.takeWhile (· ≠ '=')
        let after := argument.toList.dropWhile (· ≠ '=')
        s.word (String.ofList name)
          (if after.isEmpty then none else some (String.ofList (after.drop 1)))
      | '-' :: c :: rest => s.letters (c :: rest)
      | _ => .ok { s with positional := s.positional ++ [argument] }

def ofArguments (arguments : List String) : Except Usage Scan := do
  let s ← arguments.foldlM step {}
  match s.waiting with
  | some (_, name) => .error (.missingValue name)
  | none => .ok s

-- The last one given counts.
def value? (s : Scan) (setting : Setting) : Option String :=
  (s.given.reverse.find? (·.1 = setting)).map (·.2)

def values (s : Scan) (setting : Setting) : List String :=
  (s.given.filter (·.1 = setting)).map (·.2)

def has (s : Scan) (setting : Setting) : Bool := s.given.any (·.1 = setting)

end Scan

-- A file that is to be read has to exist; a directory is no file.
def checkFile (disk : Disk) (what text : String) (required : Bool) : Except Usage Unit :=
  match disk.lookup? text with
  | none =>
    if required then .error (.invalid what s!"File {Text.quoted text.toList} does not exist.") else .ok ()
  | some .directory => .error (.invalid what s!"File {Text.quoted text.toList} is a directory.")
  | some (.file _) => .ok ()

def checkDirectory (disk : Disk) (what text : String) : Except Usage Unit :=
  match disk.lookup? text with
  | none => .error (.invalid what s!"Directory {Text.quoted text.toList} does not exist.")
  | some (.file _) => .error (.invalid what s!"Directory {Text.quoted text.toList} is a file.")
  | some .directory => .ok ()

def checkSetting (disk : Disk) (s : Scan) (setting : Setting) : Except Usage Unit :=
  match setting with
  | .output | .symbols | .listing =>
    match s.value? setting with
    | some text => checkFile disk setting.title text false
    | none => .ok ()
  | .includes => (s.values setting).forM (checkDirectory disk setting.title)
  | _ => .ok ()

structure Request where
  input : Path
  output : Option Path
  symbols : Option Path
  listing : Option Path
  includes : List Path
  tokens : Bool
  verbose : Bool

def request (disk : Disk) (s : Scan) : Except Usage Request := do
  (s.given.map (·.1)).forM (checkSetting disk s)
  match s.positional with
  | [] => .error .missingInput
  | input :: extra =>
    checkFile disk "'INPUT_FILE'" input true
    if !extra.isEmpty then .error (.extraArguments extra)
    return {
      input := .ofString input
      output := (s.value? .output).map .ofString
      symbols := (s.value? .symbols).map .ofString
      listing := (s.value? .listing).map .ofString
      includes := (s.values .includes).map .ofString
      tokens := s.has .tokens
      verbose := s.has .verbose }

-- How bad a failure is for whoever gave the command.
inductive Grade where
  | build
  | arguments
  | internal
deriving DecidableEq, Repr

namespace Grade

def exitCode : Grade → Nat
  | .build => 1
  | .arguments => 2
  | .internal => 3

def announce (g : Grade) (text : String) : String :=
  match g with
  | .build => say s!"{text}\n"
  | .arguments => say s!"Error: {text}\n"
  | .internal => say s!"Internal error: {text}\n"

-- A program that does not assemble is its author's matter, a path that leads nowhere or is barred the caller's;
-- everything else is unexpected.
def ofFailure : Failure → Grade
  | .report _ => .build
  | .file e => if e.code = 2 ∨ e.code = 1 ∨ e.code = 13 then .arguments else .internal
  | _ => .internal

end Grade

structure Outcome where
  exitCode : Nat
  stdout : String
  stderr : String
  disk : Disk

-- The lines that an observer sees of a journal: all of them with their weight, or the warnings bare.
def logLines (verbose : Bool) (journal : Journal) : List String :=
  journal.reverse.filterMap fun event =>
    if verbose then some s!"{event.level.name}: {event.text}\n"
    else if event.level = .warning then some s!"{event.text}\n"
    else none

def tokenLine (t : Token) : String :=
  say s!"{t.location.text}  {Text.padRight 20 t.kind.name} {t.text}\n"

-- Beside the input, unless another place is asked for.
def Request.image (request : Request) : Path := request.output.getD (request.input.withSuffix ".rom")

def writeAll (request : Request) (a : Assembler) (disk : Disk) : Run Assembler.Written :=
  (a.writeImage disk request.image.text).andThen fun w =>
    (match request.listing with
      | some path => w.assembler.writeListing w.disk path.text
      | none => .ok w).andThen fun w =>
      match request.symbols with
      | some path => w.assembler.writeSymbols w.disk path.text
      | none => .ok w

def summary (request : Request) (a : Assembler) : String :=
  let base := Text.hexNumeral true 4 a.settings.loadBase
  let expansions := (a.stats.map (·.expansions)).getD 0
  let warnings := a.warnings.length
  say s!"Wrote {a.code.size} bytes to {request.image.text}\n" ++
    s!"Assembly complete: {a.code.size} bytes at ${base}, {a.namedAddresses.length} symbols\n" ++
    (if expansions = 0 then "" else s!"Expanded {expansions} macro invocation(s)\n") ++
    (if warnings = 0 then "" else s!"{warnings} warning(s)\n")

-- Nothing is written before the whole program has been assembled.
def carryOut (request : Request) (env : Environment) (disk : Disk) : Outcome :=
  let (settings, ignored) := Settings.ofEnvironment env
  let opening : Journal := .configured settings :: (ignored.map Event.ignored).reverse
  let log (a : Assembler) : String :=
    String.join (logLines request.verbose opening ++ logLines request.verbose a.journal)
  let greeting := if request.verbose then say s!"Assembling {request.input.text}...\n" else ""
  let failed (f : Failure) (a : Assembler) (disk : Disk) : Outcome :=
    let grade := Grade.ofFailure f
    ⟨grade.exitCode, greeting, log a ++ grade.announce f.message, disk⟩
  match (Assembler.new settings request.includes).assembleFile disk request.input with
  | .error stop => failed stop.failure stop.state disk
  | .ok a =>
    if request.tokens then
      let shown := (a.tokens.filter (!·.isTransparent)).map tokenLine
      ⟨0, greeting ++ String.join shown, log a, disk⟩
    else
      match writeAll request a disk with
      | .error stop => failed stop.failure stop.state.assembler stop.state.disk
      | .ok w =>
        let closing := if request.verbose then summary request w.assembler else ""
        ⟨0, greeting ++ closing, log w.assembler, w.disk⟩

def versionText : String := "talasm, version 1.0.0\n"

-- The version and the help come before everything but faults in the options themselves.
def run (arguments : List String) (env : Environment) (disk : Disk) : Outcome :=
  let refused (u : Usage) : Outcome := ⟨2, "", u.notice, disk⟩
  match Scan.ofArguments arguments with
  | .error u => refused u
  | .ok s =>
    match s.given.find? (fun given => given.1 = .version ∨ given.1 = .help) with
    | some (.version, _) => ⟨0, versionText, "", disk⟩
    | some _ => ⟨0, Usage.synopsis, "", disk⟩
    | none =>
      match request disk s with
      | .error u => refused u
      | .ok request => carryOut request env disk

end RuneAsm.Command
