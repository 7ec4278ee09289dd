import RuneAsm.Text.Hex

namespace RuneAsm

-- A cause says what happened; its wording and its hint are functions of it. A diagnostic adds the place, and the text
-- of the line where there is one to show.

-- Lines and columns count from one; a place made by hand may hold any integers.
structure Location where
  file : String
  line : Int
  column : Int
deriving DecidableEq, Repr

def Location.text (l : Location) : String := s!"{l.file}:{l.line}:{l.column}"

inductive Malformed where
  | unterminatedComment
  | strayParenthesis
  | badNumber (role digits : String)
  | missingLabelName (rune : Char)
  | missingName (rune : Char)
  | halfScopedLabel (name : String)
  | childWithoutParent (name : String)
  | referenceWithoutParent (target : String)
deriving DecidableEq, Repr

def Malformed.text : Malformed → String
  | .unterminatedComment => "unterminated comment"
  | .strayParenthesis => "unexpected ')' outside of a comment"
  | .badNumber role digits =>
    s!"invalid {role} value '{digits}': expected 1 to 4 lowercase hexadecimal digits"
  | .missingLabelName rune => s!"missing label name after '{rune}'"
  | .missingName rune => s!"missing name after '{rune}'"
  | .halfScopedLabel name => s!"malformed scoped label '{name}'"
  | .childWithoutParent name => s!"child label '{name}' used before a parent label is defined"
  | .referenceWithoutParent target =>
    s!"scoped reference '{target}' used before a parent label is defined"

inductive MacroMisuse where
  | noBody (name : String) (found : Option String)
  | alreadyDefined (name : String) (first : Location)
  | noFixedPoint (passes : Int)
  | tooManyExpansions (limit : Int) (name : String)
deriving DecidableEq, Repr

def MacroMisuse.text : MacroMisuse → String
  | .noBody name (some found) =>
    s!"macro '{name}' must be followed by a bracketed body, found '{found}'"
  | .noBody name none =>
    s!"macro '{name}' must be followed by a bracketed body, found end of input"
  | .alreadyDefined name _ => s!"macro '{name}' is already defined"
  | .noFixedPoint passes => s!"preprocessing did not reach a fixed point after {passes} passes"
  | .tooManyExpansions limit _ => s!"more than {limit} macro expansions"

def MacroMisuse.hint : MacroMisuse → Option String
  | .noBody _ _ => none
  | .alreadyDefined _ first => some s!"first defined at {first.text}"
  | .noFixedPoint _ => some "a macro probably expands to itself, directly or indirectly"
  | .tooManyExpansions _ name =>
    some s!"macro '{name}' probably invokes itself, directly or indirectly"

inductive InclusionFault where
  | notFound
  | circular
  | tooDeep (limit : Int)
  | unreadable (reason : String)
deriving DecidableEq, Repr

def InclusionFault.text : InclusionFault → String
  | .notFound => "file not found"
  | .circular => "circular include detected"
  | .tooDeep limit => s!"include nesting deeper than {limit}"
  | .unreadable reason => reason

inductive OutputFault where
  | unresolved (label : String)
  | belowBase (position base : Int)
  | rewind (cursor position : Int)
deriving DecidableEq, Repr

def OutputFault.text : OutputFault → String
  | .unresolved label => s!"unresolved reference to '{label}'"
  | .belowBase position base =>
    s!"output at ${Text.address position} is below the load base ${Text.address base}"
  | .rewind cursor position =>
    s!"unexpected rewind from ${Text.address cursor} to ${Text.address position}"

def OutputFault.hint : OutputFault → Option String
  | .unresolved _ => none
  | .belowBase _ _ => some "use |addr padding to move past the zero page"
  | .rewind _ _ => some "padding must not move back over bytes already written"

inductive Kind where
  | general
  | malformed
  | unmatchedBracket
  | duplicateLabel
  | undefinedLabel
  | referenceRange
  | macroMisuse
  | inclusion
  | unexpectedToken
  | output
deriving DecidableEq, Repr

inductive Cause where
  | malformed (fault : Malformed)
  | unmatchedBracket (bracket : String) (opener : Option Location)
  | duplicateLabel (name : String) (first : Option Location)
  -- The note, if it is not empty, takes the place of a hint made from the similar names.
  | undefinedLabel (name : String) (note : Option String) (similar : List String)
  | referenceRange (label : String) (value : Int) (mode : String)
  | macroMisuse (misuse : MacroMisuse)
  | inclusion (name : String) (fault : InclusionFault) (searched : List String)
  -- A token that only expansion can remove was still there when addresses were given.
  | unexpectedToken (kind text : String)
  | unlabelledReference (text : String)
  | output (fault : OutputFault)
  | resolvedTwice (label : String)
  -- A cause of the given family in words of one's own.
  | stated (kind : Kind) (detail : String) (hint : Option String)
deriving DecidableEq, Repr

namespace Cause

def kind : Cause → Kind
  | .malformed _ => .malformed
  | .unmatchedBracket _ _ => .unmatchedBracket
  | .duplicateLabel _ _ => .duplicateLabel
  | .undefinedLabel _ _ _ => .undefinedLabel
  | .referenceRange _ _ _ => .referenceRange
  | .macroMisuse _ => .macroMisuse
  | .inclusion _ _ _ => .inclusion
  | .unexpectedToken _ _ => .unexpectedToken
  | .unlabelledReference _ => .unexpectedToken
  | .output _ => .output
  | .resolvedTwice _ => .general
  | .stated kind _ _ => kind

def detail : Cause → String
  | .malformed fault => fault.text
  | .unmatchedBracket bracket _ => s!"unmatched bracket '{bracket}'"
  | .duplicateLabel name _ => s!"duplicate label '{name}'"
  | .undefinedLabel name _ _ => s!"reference not found for label '{name}'"
  | .referenceRange label value mode =>
    if mode = "relative-8" then s!"relative reference too far: '{label}' (offset: {value})"
    else s!"{mode} reference out of range: '{label}' (value: ${Text.address value})"
  | .macroMisuse misuse => misuse.text
  | .inclusion name fault _ => s!"cannot include '{name}': {fault.text}"
  | .unexpectedToken kind text => s!"unexpected {kind} token '{text}'"
  | .unlabelledReference text => s!"reference '{text}' has no label"
  | .output fault => fault.text
  | .resolvedTwice label => s!"reference to '{label}' resolved twice"
  | .stated _ detail _ => detail

def suggestion (similar : List String) : String :=
  let names := ", ".intercalate ((similar.take 3).map (fun name => s!"'{name}'"))
  s!"did you mean {names}?"

def hint : Cause → Option String
  | .malformed _ => none
  | .unmatchedBracket _ opener => opener.map (fun l => s!"innermost open bracket is at {l.text}")
  | .duplicateLabel name first => first.map (fun l => s!"'{name}' was first defined at {l.text}")
  | .undefinedLabel _ note similar =>
    if note.getD "" = "" ∧ similar ≠ [] then some (suggestion similar) else note
  | .referenceRange _ _ mode =>
    if mode = "relative-8" then some "use an absolute reference or move the label closer"
    else some "zero-page labels must be defined below |0100"
  | .macroMisuse misuse => misuse.hint
  | .inclusion _ _ searched =>
    if searched.isEmpty then none else
      let places := ", ".intercalate searched
      some s!"searched in: {places}"
  | .unexpectedToken _ _ => some "includes must be expanded before assembly"
  | .unlabelledReference _ => none
  | .output fault => fault.hint
  | .resolvedTwice _ => none
  | .stated _ _ hint => hint

def similar : Cause → List String
  | .undefinedLabel _ _ similar => similar
  | _ => []

end Cause

structure Diagnostic where
  cause : Cause
  location : Option Location
  sourceLine : Option String := none
deriving DecidableEq, Repr

namespace Diagnostic

def headline (d : Diagnostic) : String :=
  match d.location with
  | some l => s!"{l.text}: error: {d.cause.detail}"
  | none => s!"error: {d.cause.detail}"

-- The line is indented by four; the caret stands below the column, unless that is no column at all.
def excerpt (d : Diagnostic) : List String :=
  match d.location, d.sourceLine with
  | some l, some line =>
    let shown := "    " ++ line
    if 0 < l.column then
      [shown, String.ofList (List.replicate (3 + l.column.toNat) ' ') ++ "^"]
    else [shown]
  | _, _ => []

def advice (d : Diagnostic) : List String :=
  match d.cause.hint with
  | some text => if text = "" then [] else ["hint: " ++ text]
  | none => []

def message (d : Diagnostic) : String :=
  "\n".intercalate (d.headline :: d.excerpt ++ d.advice)

end Diagnostic

end RuneAsm
