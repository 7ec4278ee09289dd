import RuneAsm.Event
import RuneAsm.Failure
import RuneAsm.Lexeme
import RuneAsm.SymbolTable
import RuneAsm.Text.Utf8
import RuneAsm.Token

namespace RuneAsm

-- The reader goes from lexeme to lexeme, gives each its meaning, declares the labels it meets and pairs the brackets.
-- What it has read when it stops can be looked at either way.

-- Child labels and references that start with a slash or an ampersand belong to the open parent label.
structure Scope where
  parent : Option (String × Location) := none
deriving DecidableEq, Repr

namespace Scope

def enter (name : String) (location : Location) : Scope := ⟨some (name, location)⟩

def qualify (scope : Scope) (child : String) : Option String :=
  scope.parent.map (fun parent => s!"{parent.1}/{child}")

end Scope

inductive Rune where
  | literalHex
  | rawText
  | padAbsolute
  | padRelative
  | retarget
  | parentLabel
  | childLabel
  | reference (form : ReferenceForm)
  | inclusion
  | macroDefinition
deriving DecidableEq, Repr

def Rune.ofChar? (c : Char) : Option Rune :=
  match c with
  | '#' => some .literalHex
  | '\x22' => some .rawText
  | '|' => some .padAbsolute
  | '$' => some .padRelative
  | '^' => some .retarget
  | '@' => some .parentLabel
  | '&' => some .childLabel
  | ',' => some (.reference .literalRelative)
  | '.' => some (.reference .literalZeroPage)
  | ';' => some (.reference .literalAbsolute)
  | '_' => some (.reference .rawRelative)
  | '-' => some (.reference .rawZeroPage)
  | '=' => some (.reference .rawAbsolute)
  | '?' => some (.reference .jumpConditional)
  | '!' => some (.reference .jumpAlways)
  | '~' => some .inclusion
  | '%' => some .macroDefinition
  | _ => none

-- A bracket that is still open: the tokens read before it at its level, and its own token.
structure Frame where
  before : Array Token
  opener : Token

structure Reader where
  file : String
  source : List Char
  checkComments : Bool
  scope : Scope
  symbols : SymbolTable
  journal : Journal
  nextId : Nat
  line : Nat := 1
  column : Nat := 1
  -- Innermost first.
  frames : List Frame := []
  -- Since the innermost open bracket.
  latest : Array Token := #[]

namespace Reader

def tokens (r : Reader) : Array Token :=
  r.frames.foldl (fun inner frame => frame.before.push frame.opener ++ inner) r.latest

def location (r : Reader) : Location := ⟨r.file, r.line, r.column⟩

def sourceLine (r : Reader) (l : Location) : Option String :=
  if l.line < 1 then none
  else ((Text.lines r.source)[l.line.toNat - 1]?).map String.ofList

def failAt (r : Reader) (l : Location) (cause : Cause) : Run Reader :=
  .fail r (.report ⟨cause, some l, r.sourceLine l⟩)

def fail (r : Reader) (cause : Cause) : Run Reader := r.failAt r.location cause

def malformed (r : Reader) (fault : Malformed) : Run Reader := r.fail (.malformed fault)

def token (r : Reader) (text : List Char) (kind : TokenKind) : Token :=
  ⟨r.nextId, kind, String.ofList text, r.location, none⟩

def push (r : Reader) (text : List Char) (kind : TokenKind) : Run Reader :=
  .ok { r with latest := r.latest.push (r.token text kind), nextId := r.nextId + 1 }

def openBracket (r : Reader) (text : List Char) (kind : TokenKind) : Run Reader :=
  .ok { r with
    frames := ⟨r.latest, r.token text kind⟩ :: r.frames
    latest := #[]
    nextId := r.nextId + 1 }

def define (r : Reader) (name : String) (anonymous : Bool) : Run Reader :=
  match r.symbols.define name r.location anonymous with
  | .ok symbols => .ok { r with symbols, journal := .defined name r.location :: r.journal }
  | .error earlier => r.fail (.duplicateLabel name (some earlier.location))

-- The text of a closed comment ends with its parenthesis; the character before that one is looked at only when
-- it is not the opening parenthesis itself.
def commentStyles (text : List Char) (closed : Bool) : List CommentStyle :=
  let inside := text.drop 1
  let start := if inside.head?.all (!isBlank ·) then [CommentStyle.start inside.head?] else []
  let nested := List.replicate (inside.count '(') CommentStyle.nested
  let finish :=
    match text.reverse with
    | _ :: last :: _ :: _ => if closed && !isBlank last then [CommentStyle.finish last] else []
    | _ => []
  start ++ nested ++ finish

def note (r : Reader) (styles : List CommentStyle) : Reader :=
  { r with journal := (styles.map (Event.comment r.location)).reverse ++ r.journal }

def comment (r : Reader) (text : List Char) (closed : Bool) : Run Reader :=
  let r := if r.checkComments then r.note (commentStyles text closed) else r
  if closed then r.push text .comment else r.malformed .unterminatedComment

def pair (r : Reader) (frame : Frame) (outer : List Frame) (text : List Char) (kind : TokenKind) : Reader :=
  let closer := { r.token text kind with partner := some frame.opener.id }
  let opener := frame.opener.closedBy closer.id kind.label?
  { r with
    frames := outer
    latest := (frame.before.push opener ++ r.latest).push closer
    nextId := r.nextId + 1 }

def closeBracket (r : Reader) (c : Char) : Run Reader :=
  match r.frames with
  | [] => r.fail (.unmatchedBracket (String.singleton c) none)
  | frame :: outer =>
    if frame.opener.kind.closer? ≠ some c then
      r.fail (.unmatchedBracket (String.singleton c) (some frame.opener.location))
    else if c = ']' then .ok (r.pair frame outer [c] .groupClose)
    else
      let label := Token.anonymousLabel r.location
      (r.define label true).andThen fun r => .ok (r.pair frame outer [c] (.subroutineClose label))

def bracket (r : Reader) (c : Char) : Run Reader :=
  if c = '[' then r.openBracket [c] .groupOpen
  else if c = '\x7b' then
    r.openBracket [c] (.reference (ReferenceForm.subroutine.to (.inline none)))
  else r.closeBracket c

-- One to four digits.
def number? (digits : List Char) : Option Nat :=
  if 4 < digits.length then none else Text.readHex? digits

def widthOf (digits : List Char) : Width := if digits.length ≤ 2 then .byte else .short

-- Two or four digits.
def rawNumber? (word : List Char) : Option Nat :=
  if word.length = 2 ∨ word.length = 4 then Text.readHex? word else none

def padding (r : Reader) (word digits : List Char) (kind : Int → TokenKind) : Run Reader :=
  match number? digits with
  | some n => r.push word (kind n)
  | none => r.malformed (.badNumber "padding" (String.ofList digits))

def literal (r : Reader) (word digits : List Char) : Run Reader :=
  match number? digits with
  | some n => r.push word (.literalHex n (widthOf digits))
  | none => r.malformed (.badNumber "literal" (String.ofList digits))

def enter (r : Reader) (name : String) : Reader := { r with scope := .enter name r.location }

-- A name with a slash opens the scope of the part before the slash, which is declared on the way when it is new.
def parentLabel (r : Reader) (word name : List Char) : Run Reader :=
  let label := String.ofList name
  if name.isEmpty then r.malformed (.missingLabelName '@')
  else if name.contains '/' then
    let parent := name.takeWhile (· ≠ '/')
    let child := (name.dropWhile (· ≠ '/')).drop 1
    let parentName := String.ofList parent
    if parent.isEmpty || child.isEmpty then r.malformed (.halfScopedLabel label)
    else if r.symbols.contains parentName then
      ((r.enter parentName).define label false).andThen fun r => r.push word (.parentLabel label none)
    else
      (r.define parentName false).andThen fun r =>
        ((r.enter parentName).define label false).andThen fun r =>
          r.push word (.parentLabel label (some parentName))
  else
    ((r.enter label).define label false).andThen fun r => r.push word (.parentLabel label none)

def childLabel (r : Reader) (word name : List Char) : Run Reader :=
  let child := String.ofList name
  if name.isEmpty then r.malformed (.missingLabelName '&')
  else match r.scope.qualify child with
    | none => r.malformed (.childWithoutParent child)
    | some label => (r.define label false).andThen fun r => r.push word (.childLabel label)

-- The target is the word without the rune; a lone brace opens an inline subroutine.
def reference (r : Reader) (form : ReferenceForm) (first : Char) (word target : List Char) : Run Reader :=
  match target with
  | [] => r.malformed (.missingLabelName first)
  | ['\x7b'] => r.openBracket word (.reference (form.to (.inline none)))
  | c :: rest =>
    if c = '/' ∨ c = '&' then
      match r.scope.qualify (String.ofList rest) with
      | none => r.malformed (.referenceWithoutParent (String.ofList target))
      | some label => r.push word (.reference (form.to (.named label)))
    else r.push word (.reference (form.to (.named (String.ofList target))))

def named (r : Reader) (first : Char) (word name : List Char) (kind : String → TokenKind) : Run Reader :=
  if name.isEmpty then r.malformed (.missingName first) else r.push word (kind (String.ofList name))

def runeWord (r : Reader) (rune : Rune) (first : Char) (rest : List Char) : Run Reader :=
  let word := first :: rest
  match rune with
  | .literalHex => r.literal word rest
  | .rawText => r.push word (.rawText (Text.Utf8.encode rest))
  | .padAbsolute => r.padding word rest .padAbsolute
  | .padRelative => r.padding word rest .padRelative
  | .retarget => r.padding word rest .retarget
  | .parentLabel => r.parentLabel word rest
  | .childLabel => r.childLabel word rest
  | .reference form => r.reference form first word rest
  | .inclusion => r.named first word rest .inclusion
  | .macroDefinition => r.named first word rest (.macroDefinition · false)

-- Words without a rune are mnemonics, raw numbers, or else calls.
def plainWord (r : Reader) (first : Char) (rest : List Char) : Run Reader :=
  let word := first :: rest
  match Opcode.ofMnemonic? (String.ofList word) with
  | some byte => r.push word (.opcode byte.toNat)
  | none =>
    match rawNumber? word with
    | some n => r.push word (.rawHex n (widthOf word))
    | none => r.reference .call first word word

def word (r : Reader) (first : Char) (rest : List Char) : Run Reader :=
  if first = ')' then r.malformed .strayParenthesis
  else match Rune.ofChar? first with
    | some rune => r.runeWord rune first rest
    | none => r.plainWord first rest

def advance (r : Reader) (c : Char) : Reader :=
  if c = '\n' then { r with line := r.line + 1, column := 1 } else { r with column := r.column + 1 }

def take (r : Reader) : Lexeme → Run Reader
  | .blank text => r.push text .blank
  | .comment text closed => r.comment text closed
  | .bracket c => r.bracket c
  | .word first rest => r.word first rest

def step (r : Reader) (lexeme : Lexeme) : Run Reader :=
  (r.take lexeme).map (fun r => lexeme.text.foldl advance r)

-- At the end of the text no bracket may be open.
def finish (r : Reader) : Run Reader :=
  match r.frames with
  | [] => .ok r
  | frame :: _ =>
    let bracket := frame.opener.kind.bracket?.toList
    r.failAt frame.opener.location (.unmatchedBracket (String.ofList bracket) none)

def run (r : Reader) : Run Reader := (Run.each step r (Lexeme.all r.source)).andThen finish

end Reader

end RuneAsm
