import Mathlib
import RuneAsm.Proofs.Ends
import RuneAsm.Proofs.Regular

namespace RuneAsm

open Run

-- What reading a text can do. A lexeme adds one token, opens a bracket or closes the innermost one; whatever the text,
-- the tokens come out regular and balanced, with consecutive serial numbers, and the braces that close inline
-- subroutines are exactly the anonymous entries that the table has gained.

namespace Lexeme

def Proper : Lexeme → Prop
  | .blank text => text ≠ [] ∧ ∀ c ∈ text, isBlank c = true
  | .comment text _ => text.head? = some '('
  | .bracket c => isBracket c = true
  | .word first rest => first ≠ '(' ∧ isBracket first = false ∧ ∀ c ∈ first :: rest, isBlank c = false

def isSpacing : Lexeme → Bool
  | .blank _ | .comment _ _ => true
  | _ => false

theorem next_proper (c : Char) (rest : List Char) : (next c rest).1.Proper := by
  unfold next
  split
  · rename_i blank
    refine ⟨by simp, ?_⟩
    intro d member
    rcases List.mem_cons.mp member with rfl | later
    · exact blank
    · exact List.mem_takeWhile_imp later
  · rename_i solid
    split
    · rename_i comment
      subst comment
      split <;> simp [Proper]
    · rename_i noComment
      split
      · assumption
      · rename_i noBracket
        refine ⟨by simpa using noComment, by simpa using noBracket, ?_⟩
        intro d member
        rcases List.mem_cons.mp member with rfl | later
        · simpa using solid
        · simpa using List.mem_takeWhile_imp later

theorem all_proper (text : List Char) : ∀ lexeme ∈ all text, lexeme.Proper := by
  induction text using all.induct with
  | case1 => simp [all]
  | case2 c rest ih =>
    intro lexeme member
    rw [all] at member
    rcases List.mem_cons.mp member with rfl | later
    · exact next_proper c rest
    · exact ih lexeme later

end Lexeme

theorem hexValue?_lt {c : Char} {n : Nat} (read : Text.hexValue? c = some n) : n < 16 := by
  unfold Text.hexValue? at read
  split at read
  · rename_i range
    cases read
    have upper : c.toNat ≤ 57 := range.2
    omega
  · split at read
    · rename_i range
      cases read
      have upper : c.toNat ≤ 102 := range.2
      omega
    · cases read

theorem foldlM_hex_lt {digits : List Char} {start n : Nat}
    (read : digits.foldlM (fun value c => (Text.hexValue? c).map (16 * value + ·)) start = some n) :
    n < (start + 1) * 16 ^ digits.length := by
  induction digits generalizing start with
  | nil =>
    cases read
    simp
  | cons c rest ih =>
    rw [List.foldlM_cons] at read
    obtain ⟨value, first, later⟩ := Option.bind_eq_some_iff.mp read
    obtain ⟨digit, hex, rfl⟩ := Option.map_eq_some_iff.mp first
    have bound := ih later
    have small := hexValue?_lt hex
    calc n < (16 * start + digit + 1) * 16 ^ rest.length := bound
      _ ≤ ((start + 1) * 16) * 16 ^ rest.length := Nat.mul_le_mul_right _ (by omega)
      _ = (start + 1) * 16 ^ (c :: rest).length := by rw [List.length_cons, Nat.pow_succ]; ring

theorem readHex?_lt {digits : List Char} {n : Nat} (read : Text.readHex? digits = some n) :
    n < 16 ^ digits.length := by
  unfold Text.readHex? at read
  split at read
  · cases read
  · simpa using foldlM_hex_lt read

theorem widthOf_fits {digits : List Char} {n : Nat} (short : digits.length ≤ 4)
    (read : Text.readHex? digits = some n) : (Reader.widthOf digits).Fits n := by
  have bound := readHex?_lt read
  unfold Reader.widthOf
  split
  · rename_i two
    have limit : 16 ^ digits.length ≤ 16 ^ 2 := Nat.pow_le_pow_right (by decide) two
    exact ⟨by omega, by omega⟩
  · have limit : 16 ^ digits.length ≤ 16 ^ 4 := Nat.pow_le_pow_right (by decide) short
    exact ⟨by omega, by omega⟩

def TokenKind.isCaptured : TokenKind → Bool
  | .macroDefinition _ captured => captured
  | _ => false

-- The part of a name before its first slash, if it has one.
def parentOf (label : String) : Option String :=
  if label.toList.contains '/' then some (String.ofList (label.toList.takeWhile (· ≠ '/'))) else none

namespace Reader

variable {r next : Reader} {text : List Char} {kind : TokenKind} {spacing : Bool} {location : Location}

def faults : List Kind := [.malformed, .unmatchedBracket, .duplicateLabel]

-- The entries that a label makes in the table: its own, after that of the parent which it implies.
def declared (location : Location) (kind : TokenKind) : List Symbol := kind.places.map (⟨·, location, none, false⟩)

-- A parent is implied if it is new.
def Formed (before : SymbolTable) : TokenKind → Prop
  | .parentLabel label implied => implied = (parentOf label).filter (!before.contains ·)
  | .childLabel label => (parentOf label).isSome
  | _ => True

-- The declarations that a word makes: named ones only.
structure Declares (location : Location) (kind : TokenKind) (before after : SymbolTable) : Prop where
  entries : after.entries = before.entries ++ declared location kind
  distinct : before.Distinct → after.Distinct
  formed : Formed before kind

def InScope (scope : Scope) : Prop := ∀ parent, scope.parent = some parent → Plain parent.1

-- A bracket that is open has neither a partner nor, if it is a brace, its label yet.
def Unclosed (kind : TokenKind) : Prop :=
  kind = .groupOpen ∨ ∃ form, form ≠ .call ∧ kind = .reference (ReferenceForm.to form (.inline none))

-- What closing brace or bracket is read, and what it does to the table.
inductive Closes (r : Reader) : TokenKind → SymbolTable → Prop where
  | group : Closes r .groupClose r.symbols
  | brace {symbols : SymbolTable}
      (defined : r.symbols.define (Token.anonymousLabel r.location) r.location true = .ok symbols) :
      Closes r (.subroutineClose (Token.anonymousLabel r.location)) symbols

-- What one lexeme does. It is spacing exactly if its token is a blank or a comment.
inductive Taken (r : Reader) (text : List Char) (spacing : Bool) : Reader → Prop where
  | pushed {kind : TokenKind} {scope : Scope} {symbols : SymbolTable} {journal : Journal}
      (regular : kind.Regular) (opensNone : kind.closer? = none) (closesNone : kind.closes? = none)
      (uncaptured : kind.isCaptured = false) (inScope : InScope scope)
      (declares : Declares r.location kind r.symbols symbols) (sort : kind.isSpacing = spacing) :
      Taken r text spacing { r with
        scope, symbols, journal, latest := r.latest.push (r.token text kind), nextId := r.nextId + 1 }
  | opened {kind : TokenKind} (unclosed : Unclosed kind) (sort : false = spacing) :
      Taken r text spacing { r with
        frames := ⟨r.latest, r.token text kind⟩ :: r.frames, latest := #[], nextId := r.nextId + 1 }
  | closed {kind : TokenKind} {frame : Frame} {outer : List Frame} {symbols : SymbolTable} {journal : Journal}
      (frames : r.frames = frame :: outer) (closes : Closes r kind symbols)
      (agree : frame.opener.kind.closer? = kind.closes?) (sort : false = spacing) :
      Taken r text spacing ({ r with symbols, journal }.pair frame outer text kind)

theorem Taken.inScope (taken : Taken r text spacing next) (inScope : InScope r.scope) : InScope next.scope := by
  cases taken with
  | pushed _ _ _ _ inScope _ _ => exact inScope
  | opened _ _ => exact inScope
  | closed _ _ _ _ => exact inScope

theorem Declares.none (unnamed : kind.isNamed = false) (closesNone : kind.closes? = none) (t : SymbolTable) :
    Declares location kind t t := by
  refine ⟨by simp [declared, TokenKind.places_eq_nil unnamed closesNone], id, ?_⟩
  cases kind <;> trivial

theorem fail_ends {good : Reader → Prop} {cause : Cause} (kind : cause.kind ∈ faults) :
    Ends good (Failure.Within faults) (r.fail cause) := ⟨_, rfl, kind⟩

theorem malformed_ends {good : Reader → Prop} {fault : Malformed} :
    Ends good (Failure.Within faults) (r.malformed fault) := fail_ends (by simp [Cause.kind, faults])

theorem define_ends {name : String} {anonymous : Bool} :
    Ends (fun next => ∃ symbols journal, next = { r with symbols, journal } ∧
      r.symbols.define name r.location anonymous = .ok symbols) (Failure.Within faults) (r.define name anonymous) := by
  unfold define
  split
  · rename_i symbols defined
    exact ⟨symbols, _, rfl, defined⟩
  · exact fail_ends (by simp [Cause.kind, faults])

theorem push_taken (inScope : InScope r.scope) (regular : kind.Regular) (opensNone : kind.closer? = none)
    (closesNone : kind.closes? = none) (uncaptured : kind.isCaptured = false) (unnamed : kind.isNamed = false)
    (sort : kind.isSpacing = spacing) : Ends (Taken r text spacing) (Failure.Within faults) (r.push text kind) :=
  .pushed regular opensNone closesNone uncaptured inScope (.none unnamed closesNone _) sort

theorem comment_taken {closed : Bool} (inScope : InScope r.scope) :
    Ends (Taken r text true) (Failure.Within faults) (r.comment text closed) := by
  unfold comment
  cases closed with
  | true => split <;> exact .pushed trivial rfl rfl rfl inScope (.none rfl rfl _) rfl
  | false => split <;> exact malformed_ends

theorem closeBracket_taken {c : Char} (square : c = ']' ∨ c = '\x7d') :
    Ends (Taken r [c] false) (Failure.Within faults) (r.closeBracket c) := by
  unfold closeBracket
  split
  · exact fail_ends (by simp [Cause.kind, faults])
  · rename_i frame outer frames
    split
    · exact fail_ends (by simp [Cause.kind, faults])
    · rename_i matching
      have matching : frame.opener.kind.closer? = some c := by simpa using matching
      split
      · rename_i group
        subst group
        exact .closed frames .group matching rfl
      · rename_i noGroup
        have brace : c = '\x7d' := square.resolve_left noGroup
        subst brace
        refine define_ends.andThen ?_
        rintro _ ⟨symbols, journal, rfl, defined⟩
        exact .closed frames (.brace defined) matching rfl

theorem bracket_taken {c : Char} (isBracket : isBracket c = true) :
    Ends (Taken r [c] false) (Failure.Within faults) (r.bracket c) := by
  unfold bracket
  split
  · exact .opened (.inl rfl) rfl
  · rename_i noSquare
    split
    · exact .opened (.inr ⟨.subroutine, by decide, rfl⟩) rfl
    · rename_i noCurly
      apply closeBracket_taken
      simpa [RuneAsm.isBracket, noSquare, noCurly] using isBracket

variable {first : Char} {word rest : List Char}

theorem padding_taken {make : Int → TokenKind} (inScope : InScope r.scope)
    (regular : ∀ n : Nat, (make n).Regular ∧ (make n).closer? = none ∧ (make n).closes? = none ∧
      (make n).isCaptured = false ∧ (make n).isNamed = false ∧ (make n).isSpacing = false) :
    Ends (Taken r word false) (Failure.Within faults) (r.padding word rest make) := by
  unfold padding
  split
  · rename_i n _
    obtain ⟨fits, opensNone, closesNone, uncaptured, unnamed, solid⟩ := regular n
    exact push_taken inScope fits opensNone closesNone uncaptured unnamed solid
  · exact malformed_ends

theorem literal_taken (inScope : InScope r.scope) : Ends (Taken r word false) (Failure.Within faults) (r.literal word rest) := by
  unfold literal
  split
  · rename_i n read
    unfold number? at read
    split at read
    · cases read
    · rename_i short
      exact push_taken inScope (widthOf_fits (by omega) read) rfl rfl rfl rfl rfl
  · exact malformed_ends

theorem named_taken {make : String → TokenKind} (inScope : InScope r.scope)
    (regular : ∀ name, (make name).Regular ∧ (make name).closer? = none ∧ (make name).closes? = none ∧
      (make name).isCaptured = false ∧ (make name).isNamed = false ∧ (make name).isSpacing = false) :
    Ends (Taken r word false) (Failure.Within faults) (r.named first word rest make) := by
  unfold named
  split
  · exact malformed_ends
  · obtain ⟨fits, opensNone, closesNone, uncaptured, unnamed, solid⟩ := regular (String.ofList rest)
    exact push_taken inScope fits opensNone closesNone uncaptured unnamed solid

-- Both branches of a label that opens a scope end in the same way, after the scope has been entered.
theorem declareParent_taken {parent label : String} {implied : Option String} {symbols : SymbolTable}
    {journal : Journal} (parentPlain : Plain parent) (labelPlain : Plain label)
    (impliedPlain : ∀ p, implied = some p → Plain p)
    (before : symbols.entries = r.symbols.entries ++ implied.toList.map (⟨·, r.location, none, false⟩))
    (distinct : r.symbols.Distinct → symbols.Distinct) (formed : Formed r.symbols (.parentLabel label implied)) :
    Ends (Taken r word false) (Failure.Within faults)
      (((({ r with symbols, journal } : Reader).enter parent).define label false).andThen
        fun r => r.push word (.parentLabel label implied)) := by
  refine define_ends.andThen ?_
  rintro _ ⟨later, journal, rfl, defined⟩
  refine .pushed ⟨labelPlain, impliedPlain⟩ rfl rfl rfl ?_ ⟨?_, ?_, formed⟩ rfl
  · rintro _ ⟨⟩
    exact parentPlain
  · rw [(SymbolTable.define_ok_iff.mp defined).2]
    simp [enter, before, declared, TokenKind.places, location]
  · exact fun start => SymbolTable.distinct_define (distinct start) defined

theorem parentLabel_taken (plain : ∀ c ∈ rest, isBlank c = false) :
    Ends (Taken r word false) (Failure.Within faults) (r.parentLabel word rest) := by
  have labelPlain : Plain (String.ofList rest) := plain_ofList.mpr plain
  have parentPlain : Plain (String.ofList (rest.takeWhile (· ≠ '/'))) :=
    plain_ofList.mpr fun c member => plain c (List.takeWhile_sublist _ |>.subset member)
  unfold parentLabel
  dsimp only
  split
  · exact malformed_ends
  · split
    · rename_i slash
      have parent : parentOf (String.ofList rest) = some (String.ofList (rest.takeWhile (· ≠ '/'))) := by
        rw [parentOf, String.toList_ofList, if_pos slash]
      split
      · exact malformed_ends
      · split
        · rename_i known
          have formed : Formed r.symbols (.parentLabel (String.ofList rest) none) := by
            rw [Formed, parent, Option.filter_some, known]
            rfl
          exact declareParent_taken parentPlain labelPlain (by simp) (by simp) id formed
        · rename_i new
          refine define_ends.andThen ?_
          rintro _ ⟨symbols, journal, rfl, defined⟩
          have formed : Formed r.symbols (.parentLabel (String.ofList rest)
              (some (String.ofList (rest.takeWhile (· ≠ '/'))))) := by
            rw [Formed, parent, Option.filter_some, Bool.eq_false_of_not_eq_true new]
            rfl
          refine declareParent_taken parentPlain labelPlain ?_ ?_
            (fun start => SymbolTable.distinct_define start defined) formed
          · rintro _ ⟨⟩
            exact parentPlain
          · rw [(SymbolTable.define_ok_iff.mp defined).2]
            simp
    · rename_i noSlash
      have none : parentOf (String.ofList rest) = none := by rw [parentOf, String.toList_ofList, if_neg noSlash]
      exact declareParent_taken labelPlain labelPlain (by simp) (by simp) id (by simp [Formed, none])

theorem parentOf_qualify {scope : Scope} {child label : String} (qualified : scope.qualify child = some label) :
    (parentOf label).isSome := by
  unfold Scope.qualify at qualified
  obtain ⟨parent, _, rfl⟩ := Option.map_eq_some_iff.mp qualified
  simp [parentOf, toString]

theorem childLabel_taken (inScope : InScope r.scope) (plain : ∀ c ∈ rest, isBlank c = false) :
    Ends (Taken r word false) (Failure.Within faults) (r.childLabel word rest) := by
  unfold childLabel
  dsimp only
  split
  · exact malformed_ends
  · split
    · exact malformed_ends
    · rename_i label qualified
      have labelPlain := plain_qualify inScope (plain_ofList.mpr plain) qualified
      refine define_ends.andThen ?_
      rintro _ ⟨symbols, journal, rfl, defined⟩
      refine .pushed labelPlain rfl rfl rfl inScope ⟨?_, ?_, parentOf_qualify qualified⟩ rfl
      · rw [(SymbolTable.define_ok_iff.mp defined).2]
        rfl
      · exact fun start => SymbolTable.distinct_define start defined

theorem reference_taken {form : ReferenceForm} (inScope : InScope r.scope)
    (plain : ∀ c ∈ rest, isBlank c = false) (noBrace : form ≠ .subroutine)
    (noCall : rest = ['\x7b'] → form ≠ .call) :
    Ends (Taken r word false) (Failure.Within faults) (r.reference form first word rest) := by
  unfold reference
  split
  · exact malformed_ends
  · exact .opened (.inr ⟨form, noCall rfl, rfl⟩) rfl
  · rename_i c later _
    split
    · split
      · exact malformed_ends
      · rename_i label qualified
        have laterPlain := plain_ofList.mpr fun c member => plain c (List.mem_cons_of_mem _ member)
        have labelPlain := plain_qualify inScope laterPlain qualified
        exact push_taken inScope (regular_to ⟨labelPlain, noBrace⟩) rfl rfl rfl rfl rfl
    · exact push_taken inScope (regular_to ⟨plain_ofList.mpr plain, noBrace⟩) rfl rfl rfl rfl rfl

theorem runeWord_taken {rune : Rune} (inScope : InScope r.scope) (found : Rune.ofChar? first = some rune)
    (plain : ∀ c ∈ rest, isBlank c = false) :
    Ends (Taken r (first :: rest) false) (Failure.Within faults) (r.runeWord rune first rest) := by
  unfold runeWord
  cases rune with
  | literalHex => exact literal_taken inScope
  | rawText => exact push_taken inScope trivial rfl rfl rfl rfl rfl
  | padAbsolute => exact padding_taken inScope fun _ => ⟨trivial, rfl, rfl, rfl, rfl, rfl⟩
  | padRelative => exact padding_taken inScope fun _ => ⟨trivial, rfl, rfl, rfl, rfl, rfl⟩
  | retarget => exact padding_taken inScope fun _ => ⟨trivial, rfl, rfl, rfl, rfl, rfl⟩
  | parentLabel => exact parentLabel_taken plain
  | childLabel => exact childLabel_taken inScope plain
  | reference form =>
    have forms : form ≠ .subroutine ∧ form ≠ .call := by
      unfold Rune.ofChar? at found
      split at found <;> cases found <;> decide
    exact reference_taken inScope plain forms.1 fun _ => forms.2
  | inclusion => exact named_taken inScope fun _ => ⟨trivial, rfl, rfl, rfl, rfl, rfl⟩
  | macroDefinition => exact named_taken inScope fun _ => ⟨trivial, rfl, rfl, rfl, rfl, rfl⟩

theorem opcode_regular (byte : UInt8) : (TokenKind.opcode byte.toNat).Regular := by
  have bound := byte.toNat_lt
  exact ⟨by omega, by omega⟩

theorem plainWord_taken (inScope : InScope r.scope) (noBracket : isBracket first = false)
    (plain : ∀ c ∈ first :: rest, isBlank c = false) :
    Ends (Taken r (first :: rest) false) (Failure.Within faults) (r.plainWord first rest) := by
  unfold plainWord
  dsimp only
  split
  · exact push_taken inScope (opcode_regular _) rfl rfl rfl rfl rfl
  · split
    · rename_i n read
      unfold rawNumber? at read
      split at read
      · rename_i size
        exact push_taken inScope (widthOf_fits (by omega) read) rfl rfl rfl rfl rfl
      · cases read
    · refine reference_taken inScope plain (by decide) ?_
      intro brace
      cases brace
      exact absurd noBracket (by decide)

theorem word_taken (inScope : InScope r.scope) (noBracket : isBracket first = false)
    (plain : ∀ c ∈ first :: rest, isBlank c = false) :
    Ends (Taken r (first :: rest) false) (Failure.Within faults) (r.word first rest) := by
  unfold Reader.word
  split
  · exact malformed_ends
  · split
    · rename_i rune found
      exact runeWord_taken inScope found fun c member => plain c (List.mem_cons_of_mem _ member)
    · exact plainWord_taken inScope noBracket plain

theorem take_taken {lexeme : Lexeme} (inScope : InScope r.scope) (proper : lexeme.Proper) :
    Ends (Taken r lexeme.text lexeme.isSpacing) (Failure.Within faults) (r.take lexeme) := by
  cases lexeme with
  | blank text => exact push_taken inScope trivial rfl rfl rfl rfl rfl
  | comment text closed => exact comment_taken inScope
  | bracket c => exact bracket_taken proper
  | word first rest => exact word_taken inScope proper.2.1 proper.2.2

def outside (frames : List Frame) : List Token :=
  frames.reverse.flatMap fun frame => frame.before.toList ++ [frame.opener]

theorem outside_cons (frame : Frame) (outer : List Frame) :
    outside (frame :: outer) = outside outer ++ (frame.before.toList ++ [frame.opener]) := by
  simp [outside]

theorem tokens_toList (r : Reader) : r.tokens.toList = outside r.frames ++ r.latest.toList := by
  unfold tokens
  generalize r.latest = latest
  induction r.frames generalizing latest with
  | nil => simp [outside]
  | cons frame outer ih =>
    rw [List.foldl_cons, ih, outside_cons]
    simp

-- The table and the serial number are those with which the reading began.
structure Coherent (symbols : SymbolTable) (nextId : Nat) (r : Reader) : Prop where
  inScope : InScope r.scope
  serials : ∃ count, r.nextId = nextId + count ∧ r.tokens.toList.map (·.id) = List.range' nextId count
  distinct : r.symbols.Distinct
  added : ∃ added, r.symbols.entries = symbols.entries ++ added ∧
    (added.filter (·.anonymous)).map (·.name) = closerLabels r.tokens.toList
  level : Orderly r.latest.toList
  frames : ∀ frame ∈ r.frames, Orderly frame.before.toList ∧ Unclosed frame.opener.kind
  uncaptured : ∀ t ∈ r.tokens.toList, t.kind.isCaptured = false

theorem serials_push {tokens : List Token} {nextId count : Nat} {t : Token}
    (serials : tokens.map (·.id) = List.range' nextId count) (id : t.id = nextId + count) :
    (tokens ++ [t]).map (·.id) = List.range' nextId (count + 1) := by
  rw [List.map_append, serials, List.range'_1_concat, List.map_singleton, id]

theorem Declares.anonymous_eq {before after : SymbolTable} (declares : Declares location kind before after) :
    ∃ added, after.entries = before.entries ++ added ∧ added.filter (·.anonymous) = [] := by
  refine ⟨_, declares.entries, List.filter_eq_nil_iff.mpr ?_⟩
  intro s member
  obtain ⟨name, _, rfl⟩ := List.mem_map.mp member
  simp

theorem closedBy_id (opener : Token) (closer : Nat) (label : Option String) :
    (opener.closedBy closer label).id = opener.id := by
  unfold Token.closedBy
  split <;> rfl

theorem Closes.regular {symbols : SymbolTable} (closes : Closes r kind symbols) : kind.Regular := by
  cases closes with
  | group => trivial
  | brace defined => exact anonymousLabel_not_plain _

-- The opener gets its partner and its label when the closing bracket is read, and is regular from then on.
theorem closedBy_pairs {opener : Token} (closer : Token) {symbols : SymbolTable} (unclosed : Unclosed opener.kind)
    (closes : Closes r closer.kind symbols) (agree : opener.kind.closer? = closer.kind.closes?)
    (back : closer.partner = some opener.id) :
    Pairs (opener.closedBy closer.id closer.kind.label?) closer ∧
      (opener.closedBy closer.id closer.kind.label?).kind.Regular := by
  generalize kindEq : closer.kind = kind at closes agree
  cases closes with
  | group =>
    have group : opener.kind = .groupOpen := TokenKind.closer?_eq_square.mp agree
    have opened : opener.closedBy closer.id none = { opener with partner := some closer.id } := by
      simp [Token.closedBy, group]
    simp only [TokenKind.label?, opened]
    exact ⟨⟨⟨']', by simp [group, TokenKind.closer?], by rw [kindEq]; rfl⟩, rfl, back, by
      simp [group, kindEq, TokenKind.label?]⟩, by simp [group, TokenKind.Regular]⟩
  | brace defined =>
    rcases unclosed with group | ⟨form, noCall, kindOpener⟩
    · rw [group] at agree
      cases agree
    · simp only [TokenKind.label?, Token.closedBy, kindOpener]
      refine ⟨⟨⟨'\x7d', rfl, by rw [kindEq]; rfl⟩, rfl, back, by rw [kindEq]; rfl⟩, ?_⟩
      exact regular_to ⟨⟨_, rfl, anonymousLabel_not_plain _⟩, noCall⟩

theorem unclosed_closerLabel? (unclosed : Unclosed kind) : kind.closerLabel? = none := by
  rcases unclosed with rfl | ⟨form, _, rfl⟩ <;> rfl

theorem closedBy_closerLabel? (opener : Token) (closer : Nat) (label : Option String)
    (unclosed : Unclosed opener.kind) : (opener.closedBy closer label).kind.closerLabel? = none := by
  rcases unclosed with group | ⟨form, _, kind⟩
  · simp [Token.closedBy, group, TokenKind.closerLabel?]
  · simp [Token.closedBy, kind, TokenKind.closerLabel?]

theorem unclosed_isCaptured (unclosed : Unclosed kind) : kind.isCaptured = false := by
  rcases unclosed with rfl | ⟨form, _, rfl⟩ <;> rfl

theorem closedBy_isCaptured (opener : Token) (closer : Nat) (label : Option String) :
    (opener.closedBy closer label).kind.isCaptured = opener.kind.isCaptured := by
  unfold Token.closedBy
  split
  · rename_i kind
    simp [kind, TokenKind.isCaptured]
  · rfl

theorem Closes.isCaptured {symbols : SymbolTable} (closes : Closes r kind symbols) : kind.isCaptured = false := by
  cases closes <;> rfl

theorem Closes.added {symbols : SymbolTable} (closes : Closes r kind symbols) :
    ∃ added, symbols.entries = r.symbols.entries ++ added ∧
      (added.filter (·.anonymous)).map (·.name) = kind.closerLabel?.toList ∧
      (r.symbols.Distinct → symbols.Distinct) := by
  cases closes with
  | group => exact ⟨[], by simp, rfl, id⟩
  | brace defined =>
    refine ⟨[⟨Token.anonymousLabel r.location, r.location, none, true⟩], ?_, rfl,
      fun distinct => SymbolTable.distinct_define distinct defined⟩
    rw [(SymbolTable.define_ok_iff.mp defined).2]

theorem pair_tokens {frame : Frame} {outer : List Frame} :
    (r.pair frame outer text kind).tokens.toList =
      outside outer ++ (frame.before.toList ++
        frame.opener.closedBy r.nextId kind.label? :: r.latest.toList) ++
        [{ r.token text kind with partner := some frame.opener.id }] := by
  rw [tokens_toList]
  simp [pair, token]

variable {symbols : SymbolTable} {nextId : Nat}

theorem coherent_start (distinct : r.symbols.Distinct) (inScope : InScope r.scope) (frames : r.frames = [])
    (latest : r.latest = #[]) : Coherent r.symbols r.nextId r := by
  have none : r.tokens.toList = [] := by
    rw [tokens_toList, frames, latest]
    rfl
  refine ⟨inScope, ⟨0, rfl, by simp [none]⟩, distinct, ⟨[], by simp, by simp [none]⟩, ?_, by simp [frames], by simp [none]⟩
  rw [latest]
  exact .nil

theorem coherent_closed {frame : Frame} {outer : List Frame} {table : SymbolTable} {journal : Journal}
    (coherent : Coherent symbols nextId r) (frames : r.frames = frame :: outer) (closes : Closes r kind table)
    (agree : frame.opener.kind.closer? = kind.closes?) :
    Coherent symbols nextId ({ r with symbols := table, journal }.pair frame outer text kind) := by
  obtain ⟨level, unclosed⟩ := coherent.frames frame (by simp [frames])
  obtain ⟨count, number, serials⟩ := coherent.serials
  obtain ⟨earlier, entries, names⟩ := coherent.added
  obtain ⟨new, grown, label, distinct⟩ := closes.added
  rw [tokens_toList, frames, outside_cons] at serials names
  have uncaptured := coherent.uncaptured
  rw [tokens_toList, frames, outside_cons] at uncaptured
  refine ⟨coherent.inScope, ⟨count + 1, by simp [pair, number]; omega, ?_⟩, distinct coherent.distinct,
    ⟨earlier ++ new, ?_, ?_⟩, ?_, ?_, ?_⟩
  · rw [pair_tokens]
    refine serials_push ?_ number
    rw [← serials]
    simp [closedBy_id]
  · simp [pair, grown, entries]
  · rw [pair_tokens, List.filter_append, List.map_append, names, label]
    have closer := closedBy_closerLabel? frame.opener r.nextId kind.label? unclosed
    have opener := unclosed_closerLabel? unclosed
    simp [closerLabels_cons, closer, opener, token]
  · obtain ⟨pairs, regular⟩ := closedBy_pairs { r.token text kind with partner := some frame.opener.id } unclosed
      closes agree rfl
    have enclosed := coherent.level.balanced.enclose pairs
    have whole : Orderly (frame.opener.closedBy r.nextId kind.label? :: r.latest.toList ++
        [{ r.token text kind with partner := some frame.opener.id }]) := by
      refine ⟨enclosed, ?_⟩
      intro t member
      rcases List.mem_append.mp member with front | last
      · rcases List.mem_cons.mp front with rfl | inside
        · exact regular
        · exact coherent.level.regular t inside
      · rw [List.mem_singleton.mp last]
        exact closes.regular
    simpa [pair, token, location] using level.append whole
  · intro other member
    exact coherent.frames other (by rw [frames]; exact List.mem_cons_of_mem _ member)
  · rw [pair_tokens]
    intro t member
    simp only [List.mem_append, List.mem_cons, List.not_mem_nil, or_false] at member uncaptured
    rcases member with (early | before | rfl | latest) | rfl
    · exact uncaptured t (.inl (.inl early))
    · exact uncaptured t (.inl (.inr (.inl before)))
    · rw [closedBy_isCaptured]
      exact unclosed_isCaptured unclosed
    · exact uncaptured t (.inr latest)
    · exact closes.isCaptured

theorem coherent_pushed {scope : Scope} {table : SymbolTable} {journal : Journal}
    (coherent : Coherent symbols nextId r) (regular : kind.Regular) (opensNone : kind.closer? = none)
    (closesNone : kind.closes? = none) (new : kind.isCaptured = false) (inScope : InScope scope)
    (declares : Declares r.location kind r.symbols table) :
    Coherent symbols nextId { r with
      scope, symbols := table, journal, latest := r.latest.push (r.token text kind), nextId := r.nextId + 1 } := by
  obtain ⟨count, number, serials⟩ := coherent.serials
  obtain ⟨earlier, entries, names⟩ := coherent.added
  obtain ⟨added, grown, named⟩ := declares.anonymous_eq
  have uncaptured := coherent.uncaptured
  rw [tokens_toList] at serials names uncaptured
  refine ⟨inScope, ⟨count + 1, by simp [number]; omega, ?_⟩, declares.distinct coherent.distinct,
    ⟨earlier ++ added, by simp [grown, entries], ?_⟩, ?_, coherent.frames, ?_⟩
  · rw [tokens_toList]
    simpa using serials_push serials (t := r.token text kind) number
  · rw [tokens_toList, List.filter_append, named, List.append_nil, names]
    simp [closerLabels_cons, token, closerLabel?_of_closes? closesNone]
  · have last : Orderly [r.token text kind] :=
      ⟨.single opensNone closesNone rfl, fun t member => by rw [List.mem_singleton.mp member]; exact regular⟩
    simpa using coherent.level.append last
  · rw [tokens_toList, Array.toList_push, ← List.append_assoc]
    intro t member
    rcases List.mem_append.mp member with old | last
    · exact uncaptured t old
    · rw [List.mem_singleton.mp last]
      exact new

theorem coherent_opened (coherent : Coherent symbols nextId r) (unclosed : Unclosed kind) :
    Coherent symbols nextId { r with
      frames := ⟨r.latest, r.token text kind⟩ :: r.frames, latest := #[], nextId := r.nextId + 1 } := by
  obtain ⟨count, number, serials⟩ := coherent.serials
  obtain ⟨earlier, entries, names⟩ := coherent.added
  have uncaptured := coherent.uncaptured
  rw [tokens_toList] at serials names uncaptured
  refine ⟨coherent.inScope, ⟨count + 1, by simp [number]; omega, ?_⟩, coherent.distinct,
    ⟨earlier, entries, ?_⟩, .nil, ?_, ?_⟩
  · rw [tokens_toList, outside_cons]
    simpa using serials_push serials (t := r.token text kind) number
  · rw [tokens_toList, outside_cons, names]
    simp [closerLabels_cons, token, unclosed_closerLabel? unclosed]
  · intro frame member
    rcases List.mem_cons.mp member with rfl | outer
    · exact ⟨coherent.level, unclosed⟩
    · exact coherent.frames frame outer
  · rw [tokens_toList, outside_cons]
    intro t member
    simp only [List.mem_append, List.mem_singleton, List.not_mem_nil, or_false] at member uncaptured
    rcases member with early | latest | rfl
    · exact uncaptured t (.inl early)
    · exact uncaptured t (.inr latest)
    · exact unclosed_isCaptured unclosed

theorem coherent_taken (coherent : Coherent symbols nextId r) (taken : Taken r text spacing next) :
    Coherent symbols nextId next := by
  cases taken with
  | pushed regular opensNone closesNone uncaptured inScope declares =>
    exact coherent_pushed coherent regular opensNone closesNone uncaptured inScope declares
  | opened unclosed => exact coherent_opened coherent unclosed
  | closed frames closes agree => exact coherent_closed coherent frames closes agree

-- Moving on over a lexeme changes the place and nothing else.
theorem foldl_advance (text : List Char) (r : Reader) :
    ∃ line column, text.foldl advance r = { r with line, column } := by
  induction text generalizing r with
  | nil => exact ⟨r.line, r.column, rfl⟩
  | cons c rest ih =>
    obtain ⟨line, column, moved⟩ := ih (r.advance c)
    refine ⟨line, column, ?_⟩
    rw [List.foldl_cons, moved]
    unfold advance
    split <;> rfl

theorem coherent_moved {line column : Nat} (coherent : Coherent symbols nextId r) :
    Coherent symbols nextId { r with line, column } :=
  ⟨coherent.inScope, coherent.serials, coherent.distinct, coherent.added, coherent.level, coherent.frames,
    coherent.uncaptured⟩

theorem step_coherent {lexeme : Lexeme} (coherent : Coherent symbols nextId r) (proper : lexeme.Proper) :
    Ends (Coherent symbols nextId) (Failure.Within faults) (r.step lexeme) := by
  have taken := take_taken coherent.inScope proper
  unfold step
  cases ran : r.take lexeme with
  | ok next =>
    obtain ⟨line, column, moved⟩ := foldl_advance lexeme.text next
    change Coherent symbols nextId (lexeme.text.foldl advance next)
    rw [moved]
    exact coherent_moved (coherent_taken coherent (taken.ok ran))
  | error stop => exact taken.error ran

theorem each_coherent {lexemes : List Lexeme} (coherent : Coherent symbols nextId r)
    (proper : ∀ lexeme ∈ lexemes, lexeme.Proper) :
    Ends (Coherent symbols nextId) (Failure.Within faults) (Run.each step r lexemes) := by
  have kept : Ends _ (Failure.Within faults) (Run.each step r lexemes) := ends_each
    (fun rest r => Coherent symbols nextId r ∧ ∀ lexeme ∈ rest, lexeme.Proper)
    (fun r lexeme rest before => (step_coherent before.1 (before.2 lexeme (by simp))).mono
      (fun next after => ⟨after, fun other member => before.2 other (List.mem_cons_of_mem _ member)⟩)
      (fun _ failed => failed))
    ⟨coherent, proper⟩
  exact kept.mono (fun _ after => after.1) (fun _ failed => failed)

theorem run_eq_ok (ran : r.run = .ok next) : Run.each step r (Lexeme.all r.source) = .ok next ∧ next.frames = [] := by
  obtain ⟨last, reached, finished⟩ := andThen_eq_ok ran
  unfold finish at finished
  split at finished
  · rename_i frames
    cases finished
    exact ⟨reached, frames⟩
  · cases finished

-- At the end nothing is open, so the tokens are those of one level.
theorem run_coherent (coherent : Coherent symbols nextId r) :
    Ends (fun next => Coherent symbols nextId next ∧ Orderly next.tokens.toList) (Failure.Within faults) r.run := by
  refine (each_coherent coherent (Lexeme.all_proper r.source)).andThen ?_
  intro last reached
  unfold finish
  split
  · rename_i closed
    refine ⟨reached, ?_⟩
    rw [tokens_toList, closed]
    exact reached.level
  · exact ⟨_, rfl, by simp [Cause.kind, faults]⟩

end Reader

end RuneAsm
