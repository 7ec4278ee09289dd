import Mathlib
import RuneAsm.Proofs.Bracketing
import RuneAsm.Proofs.Declaring
import RuneAsm.Proofs.Lines

namespace RuneAsm

open Run

-- Where a refused text is at fault. A lexeme is refused before the reader moves on, so the report names the place where
-- the lexeme begins; at the end of the text it names the place of the innermost bracket that is still open. Either way
-- a character stands there, and it is not a newline.

namespace Lexeme

variable {lexeme : Lexeme} {parent : Option String}

-- Spacing that is complete is never refused, and a bracket only when it closes.
def Refusable : Lexeme → Prop
  | .blank _ => False
  | .comment _ closed => closed = false
  | .bracket c => c = ']' ∨ c = '\x7d'
  | .word _ _ => True

theorem head_text (proper : lexeme.Proper) (solid : ∀ text, lexeme ≠ .blank text) :
    ∃ first rest, lexeme.text = first :: rest ∧ isBlank first = false := by
  cases lexeme with
  | blank text => exact absurd rfl (solid text)
  | comment text closed =>
    obtain ⟨rest, rfl⟩ := List.head?_eq_some_iff.mp proper
    exact ⟨'(', rest, rfl, rfl⟩
  | bracket c => exact ⟨c, [], rfl, not_blank_of_solid proper rfl c List.mem_cons_self⟩
  | word first rest => exact ⟨first, rest, rfl, not_blank_of_solid proper rfl first List.mem_cons_self⟩

end Lexeme

namespace Reader

variable {r next m : Reader} {text : List Char} {lexeme : Lexeme} {lexemes : List Lexeme} {stop : Stop Reader}

-- The report of a reader about the place where it stands.
def Blames (r : Reader) (f : Failure) : Prop :=
  ∃ cause : Cause, cause.kind ∈ faults ∧ f = .report ⟨cause, some r.location, r.sourceLine r.location⟩

theorem define_blames (r : Reader) (name : String) (anonymous : Bool) :
    Ends (fun next => ∃ symbols journal, next = { r with symbols, journal }) r.Blames (r.define name anonymous) := by
  unfold define
  split
  · exact ⟨_, _, rfl⟩
  · exact ⟨_, by simp [Cause.kind, faults], rfl⟩

theorem declares_blames (r : Reader) (ds : List Declaration) :
    Ends (fun next => ∃ scope symbols journal, next = { r with scope, symbols, journal }) r.Blames
      (Run.each declare r ds) := by
  apply ends_each fun (_ : List Declaration) (next : Reader) =>
    ∃ scope symbols journal, next = ({ r with scope, symbols, journal } : Reader)
  · intro mid d rest same
    obtain ⟨scope, symbols, journal, rfl⟩ := same
    unfold declare
    cases d.enters with
    | none =>
      apply (define_blames _ d.name d.anonymous).mono _ fun _ blamed => blamed
      rintro next ⟨symbols, journal, rfl⟩
      exact ⟨scope, symbols, journal, rfl⟩
    | some parent =>
      apply (define_blames _ d.name d.anonymous).mono _ fun _ blamed => blamed
      rintro next ⟨symbols, journal, rfl⟩
      exact ⟨_, symbols, journal, rfl⟩
  · exact ⟨r.scope, r.symbols, r.journal, rfl⟩

theorem accept_blames (r : Reader) (text : List Char) (meaning : Meaning) :
    Ends (fun next => next.source = r.source) r.Blames (r.accept text meaning) := by
  have refused (cause : Cause) (kind : cause.kind ∈ faults) :
      Ends (fun next => next.source = r.source) r.Blames (r.fail cause) := ⟨cause, kind, rfl⟩
  have declared := declares_blames r meaning.declares
  unfold accept
  split
  · apply declared.andThen
    intro mid same
    obtain ⟨scope, symbols, journal, rfl⟩ := same
    unfold attach
    split <;> rfl
  · split
    · exact refused _ (by simp [Cause.kind, faults])
    · split
      · exact refused _ (by simp [Cause.kind, faults])
      · apply declared.andThen
        intro mid same
        obtain ⟨scope, symbols, journal, rfl⟩ := same
        rfl

theorem take_blames (r : Reader) (proper : lexeme.Proper) :
    Ends (fun next => next.source = r.source) r.Blames (r.take lexeme) := by
  obtain ⟨journal, remarked⟩ := remark_frame r lexeme
  rw [take_eq r proper, remarked]
  cases lexeme.meaning r.location r.parent r.symbols.contains with
  | error fault => exact ⟨_, by simp [Cause.kind, faults], rfl⟩
  | ok meaning => exact accept_blames _ _ meaning

theorem refusable_of_take (proper : lexeme.Proper) (refused : r.take lexeme = .error stop) : lexeme.Refusable := by
  cases lexeme with
  | blank text => cases refused
  | comment text closed =>
    cases closed with
    | true => cases refused
    | false => rfl
  | bracket c =>
    have sorts : c = '[' ∨ c = ']' ∨ c = '\x7b' ∨ c = '\x7d' := by
      simpa [Lexeme.Proper, isBracket, or_assoc] using proper
    rcases sorts with rfl | rfl | rfl | rfl
    · cases refused
    · exact .inl rfl
    · cases refused
    · exact .inr rfl
  | word first rest => trivial

theorem step_refused (proper : lexeme.Proper) (refused : r.step lexeme = .error stop) :
    lexeme.Refusable ∧ r.Blames stop.failure := by
  unfold step at refused
  cases taken : r.take lexeme with
  | ok mid =>
    rw [taken] at refused
    cases refused
  | error earlier =>
    rw [taken] at refused
    cases refused
    exact ⟨refusable_of_take proper taken, (take_blames r proper).error taken⟩

-- Where the reader stands after some lexemes.
theorem each_stands (proper : ∀ lexeme ∈ lexemes, lexeme.Proper) (ran : Run.each step r lexemes = .ok next) :
    next.file = r.file ∧ next.source = r.source ∧
      next.place = (lexemes.flatMap Lexeme.text).foldl passed r.place := by
  induction lexemes generalizing r with
  | nil =>
    cases ran
    exact ⟨rfl, rfl, rfl⟩
  | cons lexeme rest ih =>
    obtain ⟨mid, first, others⟩ := andThen_eq_ok ran
    obtain ⟨file, place, _⟩ := step_place (proper lexeme List.mem_cons_self) first
    obtain ⟨taken, line, column, took, rfl, _⟩ := step_eq_ok first
    have source := (take_blames r (proper lexeme List.mem_cons_self)).ok took
    obtain ⟨files, sources, places⟩ := ih (fun x member => proper x (List.mem_cons_of_mem _ member)) others
    refine ⟨files.trans file, sources.trans source, ?_⟩
    rw [places, place, List.flatMap_cons, List.foldl_append]

theorem Levelled.unclosed {nextId : Nat} (levelled : Levelled nextId lexemes r) (failed : r.finish = .error stop) :
    ∃ front t back cause, r.tokens.toList = front ++ t :: back ∧ t.kind.closer?.isSome ∧
      WellNested (bracketsOf back) ∧ cause.kind ∈ faults ∧
      stop = ⟨.report ⟨cause, some t.location, r.sourceLine t.location⟩, r⟩ := by
  unfold finish at failed
  split at failed
  · cases failed
  · rename_i frame outer frames
    cases failed
    obtain ⟨_, c, opens⟩ := levelled.frames frame (by simp [frames])
    refine ⟨outside outer ++ frame.before.toList, frame.opener, r.latest.toList, _, ?_, ?_, levelled.level.wellNested,
      ?_, rfl⟩
    · simp [tokens_toList, frames, outside_cons]
    · rw [opens]
      rfl
    · simp [Cause.kind, faults]

theorem solid_of_opens {file : String} {place : Nat × Nat} {scope : Option String} {tokens : List Token} {t : Token}
    (proper : ∀ lexeme ∈ lexemes, lexeme.Proper) (same : tokens.map Token.mark = stamps file place scope lexemes)
    (member : t ∈ tokens) (opens : t.kind.closer?.isSome) :
    ∃ first rest, t.text.toList = first :: rest ∧ isBlank first = false := by
  obtain ⟨lexeme, inside, text, parent, kind⟩ := mem_stamps (same ▸ List.mem_map_of_mem member)
  rw [show t.text = String.ofList lexeme.text from text, String.toList_ofList]
  apply Lexeme.head_text (proper lexeme inside)
  rintro blank rfl
  have bare : t.kind.bare = .blank := Option.some.inj kind
  cases sort : t.kind <;> simp_all [TokenKind.bare, TokenKind.closer?]
  split at bare <;> cases bare

-- What a refused text is at fault with, and what stands before it: the lexeme that was refused, everything before it
-- having been read, or the innermost bracket that is open at the end.
inductive Offends (r : Reader) (stop : Stop Reader) : List Char → List Char → Prop
  | refused {front back : List Lexeme} {lexeme : Lexeme} {m : Reader} :
      Lexeme.all r.source = front ++ lexeme :: back → Run.each step r front = .ok m → m.step lexeme = .error stop →
        lexeme.Refusable → Offends r stop (front.flatMap Lexeme.text) lexeme.text
  | unclosed {front back : List Token} {t : Token} :
      Run.each step r (Lexeme.all r.source) = .ok stop.state → stop.state.tokens.toList = front ++ t :: back →
        t.kind.closer?.isSome → WellNested (bracketsOf back) →
          Offends r stop (Token.source front).toList t.text.toList

-- A report about the place to which some text leads from where a reader stands.
def BlamesAfter (r : Reader) (before : List Char) (f : Failure) : Prop :=
  ∃ (cause : Cause) (location : Location), cause.kind ∈ faults ∧
    location = (fun p : Nat × Nat => ⟨r.file, p.1, p.2⟩) (before.foldl passed r.place) ∧
    f = .report ⟨cause, some location, r.sourceLine location⟩

theorem each_offends (failed : Run.each step r (Lexeme.all r.source) = .error stop) :
    ∃ before first rest after, Offends r stop before (first :: rest) ∧
      r.source = before ++ first :: (rest ++ after) ∧ isBlank first = false ∧ r.BlamesAfter before stop.failure := by
  have proper := Lexeme.all_proper r.source
  obtain ⟨front, lexeme, back, m, parts, walked, refused⟩ := each_eq_error failed
  have here := proper lexeme (by simp [parts])
  obtain ⟨file, source, place⟩ := each_stands (fun x member => proper x (by simp [parts, member])) walked
  obtain ⟨refusable, cause, kind, told⟩ := step_refused here refused
  obtain ⟨first, rest, text, solid⟩ := lexeme.head_text here (by
    rintro blank rfl
    exact refusable)
  refine ⟨front.flatMap Lexeme.text, first, rest, back.flatMap Lexeme.text, ?_, ?_, solid, cause, m.location, kind, ?_, ?_⟩
  · rw [← text]
    exact .refused parts walked refused refusable
  · calc r.source = (Lexeme.all r.source).flatMap Lexeme.text := (Lexeme.all_text _).symm
      _ = front.flatMap Lexeme.text ++ first :: (rest ++ back.flatMap Lexeme.text) := by
        rw [parts, List.flatMap_append, List.flatMap_cons, text]
        rfl
  · rw [← place, ← file]
    rfl
  · rw [told, sourceLine, source]
    rfl

theorem finish_offends {nextId : Nat} (start : Levelled nextId [] r) (untouched : r.marks = [])
    (read : Run.each step r (Lexeme.all r.source) = .ok m) (failed : m.finish = .error stop) :
    ∃ before first rest after, Offends r stop before (first :: rest) ∧
      r.source = before ++ first :: (rest ++ after) ∧ isBlank first = false ∧ r.BlamesAfter before stop.failure := by
  have proper := Lexeme.all_proper r.source
  obtain ⟨_, source, _⟩ := each_stands proper read
  obtain ⟨front, t, back, cause, parts, opens, nested, kind, rfl⟩ := (each_levelled start proper read).unclosed failed
  have marks : (front ++ t :: back).map Token.mark = stamps r.file r.place r.parent (Lexeme.all r.source) := by
    have scanned := ((each_scans r proper).ok read).marks
    rwa [untouched, List.nil_append, marks, parts] at scanned
  obtain ⟨location, _⟩ := location_of_stamps marks
  obtain ⟨first, rest, text, solid⟩ := solid_of_opens proper marks (by simp) opens
  refine ⟨(Token.source front).toList, first, rest, (Token.source back).toList, ?_, ?_, solid, cause, t.location, kind,
    location, ?_⟩
  · rw [← text]
    exact .unclosed read parts opens nested
  · calc r.source = (Token.source (front ++ t :: back)).toList := by rw [source_of_stamps marks, Lexeme.all_text]
      _ = (Token.source front).toList ++ first :: (rest ++ (Token.source back).toList) := by
        simp [source_toList, text]
  · simp only [sourceLine, source]

-- Whatever a reading starts with. A report about a text that cannot be read names one of its lines and one of the
-- columns of that line, shows the line, and points at the first character of what the text is at fault with.
theorem run_blames_first_character (file : String) (source : List Char) (checkComments : Bool) (scope : Scope)
    (symbols : SymbolTable) (journal : Journal) (nextId : Nat) :
    let r : Reader := { file, source, checkComments, scope, symbols, journal, nextId }
    ∀ stop, r.run = .error stop →
      ∃ (cause : Cause) (line column : Nat) (shown before : List Char) (first : Char) (rest : List Char),
        stop.failure = .report ⟨cause, some ⟨file, line, column⟩, some (String.ofList shown)⟩ ∧
        cause.kind ∈ [.malformed, .unmatchedBracket, .duplicateLabel] ∧
        r.Offends stop before (first :: rest) ∧ before ++ first :: rest <+: source ∧
        line = 1 + before.count '\n' ∧ column = 1 + (before.rtakeWhile (· ≠ '\n')).length ∧
        1 ≤ line ∧ line ≤ (Text.lines source).length ∧ (Text.lines source)[line - 1]? = some shown ∧
        1 ≤ column ∧ column ≤ shown.length ∧ shown[column - 1]? = some first := by
  intro r stop ran
  have start : Levelled nextId [] r := ⟨rfl, rfl, .nil, by simp [r], 0, rfl, rfl⟩
  obtain ⟨before, first, rest, after, offends, whole, solid, cause, location, kind, rfl, told⟩ :
      ∃ before first rest after, r.Offends stop before (first :: rest) ∧
        source = before ++ first :: (rest ++ after) ∧ isBlank first = false ∧ r.BlamesAfter before stop.failure := by
    rcases andThen_eq_error ran with failed | ⟨last, read, failed⟩
    · exact each_offends failed
    · exact finish_offends start rfl read failed
  have inside : first ≠ '\n' := by
    rintro rfl
    cases solid
  obtain ⟨shown, found, pointed⟩ := Text.lines_at before (rest ++ after) inside
  rw [← whole] at found
  have rows := (List.getElem?_eq_some_iff.mp found).1
  have columns := (List.getElem?_eq_some_iff.mp pointed).1
  have place : before.foldl passed r.place = (1 + before.count '\n', 1 + (before.rtakeWhile (· ≠ '\n')).length) :=
    foldl_passed_start before
  refine ⟨cause, 1 + before.count '\n', 1 + (before.rtakeWhile (· ≠ '\n')).length, shown, before, first, rest, ?_, kind,
    offends, ⟨after, by rw [whole]; simp⟩, rfl, rfl, by omega, by omega, ?_, by omega, by omega, ?_⟩
  · rw [told, place]
    have row : ((1 + before.count '\n' : Nat) : Int).toNat - 1 = before.count '\n' := by omega
    have line : r.sourceLine ⟨file, (1 + before.count '\n' : Nat), (1 + (before.rtakeWhile (· ≠ '\n')).length : Nat)⟩ =
        some (String.ofList shown) := by
      unfold sourceLine
      rw [if_neg (by simp only; omega), row]
      exact congrArg (Option.map String.ofList) found
    exact congrArg (fun line => Failure.report ⟨cause, _, line⟩) line
  · rwa [Nat.add_sub_cancel_left]
  · rwa [Nat.add_sub_cancel_left]

-- The brackets after the rune are closed, its own is not; the report shows the second of three lines.
theorem run_blames_first_character_unclosed :
    let r : Reader :=
      { file := "f", source := "@a\n #01 ?\x7b [ ( \x7d ) ]\nBRK".toList, checkComments := true, scope := {}, symbols := {},
        journal := [], nextId := 7 }
    ∃ stop before rest, r.run = .error stop ∧ r.Offends stop before ('?' :: rest) ∧ before.count '\n' = 1 ∧
      stop.failure = .report
        ⟨.unmatchedBracket "\x7b" none, some ⟨"f", 2, 6⟩, some " #01 ?\x7b [ ( \x7d ) ]"⟩ := by
  intro r
  have failed : r.run.failure? = some (.report
      ⟨.unmatchedBracket "\x7b" none, some ⟨"f", 2, 6⟩, some " #01 ?\x7b [ ( \x7d ) ]"⟩) := by decide +kernel
  obtain ⟨stop, ran, reported⟩ := eq_error_of_failure? failed
  obtain ⟨cause, line, column, shown, before, first, rest, told, _, offends, _, row, _, _, _, found, _, _, pointed⟩ :=
    run_blames_first_character "f" "@a\n #01 ?\x7b [ ( \x7d ) ]\nBRK".toList true {} {} [] 7 stop ran
  rw [told] at reported
  simp only [Failure.report.injEq, Diagnostic.mk.injEq, Option.some.injEq, Location.mk.injEq, true_and] at reported
  obtain ⟨rfl, ⟨two, six⟩, text⟩ := reported
  obtain rfl : line = 2 := by exact_mod_cast two
  obtain rfl : column = 6 := by exact_mod_cast six
  obtain rfl : shown = " #01 ?\x7b [ ( \x7d ) ]".toList := String.ofList_injective text
  obtain rfl : '?' = first := Option.some.inj pointed
  exact ⟨stop, before, rest, ran, offends, by omega, told⟩

end Reader

end RuneAsm
