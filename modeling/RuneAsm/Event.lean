import RuneAsm.Diagnostic
import RuneAsm.Settings
import RuneAsm.Text.Hex

namespace RuneAsm

-- Activities note what they did as events; the words and the weight of an event are functions of it, and the warnings
-- of a run are the events that speak of the style of its comments.

inductive CommentStyle where
  | start (found : Option Char)
  | nested
  | finish (found : Char)
deriving DecidableEq, Repr

def CommentStyle.text : CommentStyle → String
  | .start found =>
    s!"comments should start with whitespace, found {Text.quoted found.toList}"
  | .nested => "nested comments are discouraged"
  | .finish found => s!"comments should end with whitespace, found {Text.quoted [found]} before ')'"

inductive Level where
  | debug
  | info
  | warning
deriving DecidableEq, Repr

def Level.name : Level → String
  | .debug => "DEBUG"
  | .info => "INFO"
  | .warning => "WARNING"

inductive Event where
  | ignored (setting : Settings.Ignored)
  | configured (settings : Settings)
  | assembling (name : String)
  | comment (location : Location) (style : CommentStyle)
  | defined (label : String) (location : Location)
  | captured (name : String) (size : Nat) (location : Location)
  | including (file : String) (location : Location)
  | expanded (name : String) (location : Location)
  | stable (passes rewrites : Nat)
  | preprocessed (tokens includes definitions expansions : Nat)
  | linearized (records operands : Nat) (position : Int)
  | emitted (bytes : Nat)
  | generated (bytes : Nat)
  | wroteImage (bytes : Nat) (path : String)
  | wroteSymbols (path : String)
  | wroteListing (path : String)
deriving DecidableEq, Repr

namespace Event

def level : Event → Level
  | .ignored _ => .warning
  | .comment _ _ => .warning
  | .wroteImage _ _ => .info
  | .wroteSymbols _ => .info
  | .wroteListing _ => .info
  | _ => .debug

def text : Event → String
  | .ignored setting => s!"Ignoring invalid {setting.name}={Text.quoted setting.value.toList}"
  | .configured settings => s!"Configuration: {settings.describe}"
  | .assembling name => s!"Assembling {name}"
  | .comment location style => s!"{location.text}: warning: {style.text}"
  | .defined label location => s!"Defined label '{label}' at {location.text}"
  | .captured name size location => s!"Captured macro '{name}' ({size} tokens) at {location.text}"
  | .including file location => s!"Including {file} from {location.text}"
  | .expanded name location => s!"Expanded macro '{name}' at {location.text}"
  | .stable passes rewrites => s!"Preprocessing stable after {passes} passes ({rewrites} rewrites)"
  | .preprocessed tokens includes definitions expansions =>
    s!"Preprocessed into {tokens} tokens: {includes} includes, {definitions} macros, " ++
      s!"{expansions} expansions"
  | .linearized records operands position =>
    s!"Linearized {records} records ({operands} placeholders), end at ${Text.address position}"
  | .emitted bytes => s!"Emitted {bytes} bytes"
  | .generated bytes => s!"Generated {bytes} bytes of code"
  | .wroteImage bytes path => s!"Wrote {bytes} bytes to {path}"
  | .wroteSymbols path => s!"Wrote symbols to {path}"
  | .wroteListing path => s!"Wrote listing to {path}"

def warning? : Event → Option String
  | .comment location style => some s!"{location.text}: {style.text}"
  | _ => none

end Event

-- The latest first.
abbrev Journal : Type := List Event

def Journal.warnings (journal : Journal) : List String := journal.reverse.filterMap Event.warning?

end RuneAsm
