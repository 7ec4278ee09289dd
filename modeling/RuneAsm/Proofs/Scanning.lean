import Mathlib
import RuneAsm.Proofs.Lexing

namespace RuneAsm

open Run

-- What reading keeps of a text. The lexemes of a text put together are the text, and the tokens read so far, whether
-- the reading goes on or has stopped, are those of the first lexemes, one for each: same text, at the place to which
-- the texts before it lead. Apart from the labels of inline subroutines, what a token says follows from its lexeme and
-- the label in whose scope it stands.

namespace Lexeme

theorem text_ne_nil {lexeme : Lexeme} (proper : lexeme.Proper) : lexeme.text ≠ [] := by
  cases lexeme with
  | blank text => exact proper.1
  | comment text closed =>
    rintro rfl
    cases proper
  | bracket c => exact List.cons_ne_nil _ _
  | word first rest => exact List.cons_ne_nil _ _

-- Words run up to a blank, and a bracket is none.
theorem not_blank_of_solid {lexeme : Lexeme} (proper : lexeme.Proper) (solid : lexeme.isSpacing = false) :
    ∀ c ∈ lexeme.text, isBlank c = false := by
  cases lexeme with
  | blank text => cases solid
  | comment text closed => cases solid
  | bracket c =>
    have sorts : c = '[' ∨ c = ']' ∨ c = '\x7b' ∨ c = '\x7d' := by simpa [Proper, isBracket, or_assoc] using proper
    intro d written
    rw [List.mem_singleton.mp written]
    rcases sorts with rfl | rfl | rfl | rfl <;> rfl
  | word first rest => exact proper.2.2

theorem next_text (c : Char) (rest : List Char) : (next c rest).1.text ++ (next c rest).2 = c :: rest := by
  unfold next
  split
  · simp [text]
  · split
    · split
      · simp [text]
      · simp [text]
    · split
      · simp [text]
      · simp [text]

theorem all_text (source : List Char) : (all source).flatMap text = source := by
  induction source using all.induct with
  | case1 => simp [all]
  | case2 c rest ih => rw [all, List.flatMap_cons, ih, next_text]

end Lexeme

-- A kind without the labels of inline subroutines, and without the parent that a label with a slash may imply.
def TokenKind.bare : TokenKind → TokenKind
  | .parentLabel label implied => .parentLabel label (if '/' ∈ label.toList then none else implied)
  | .subroutineClose _ => .subroutineClose ""
  | .reference r =>
    match r.target with
    | .named _ => .reference r
    | .inline _ => .reference { r with target := .inline none }
  | kind => kind

namespace Lexeme

variable {lexeme : Lexeme} {parent : Option String} {m : Meaning} {kind : TokenKind}

-- What a lexeme says in the scope of a label. Bare as it is, it does not depend on where the lexeme stands and which
-- names are known.
def kind? (parent : Option String) (lexeme : Lexeme) : Option TokenKind :=
  (lexeme.meaning ⟨"", 1, 1⟩ parent fun _ => false).toOption.map (·.kind.bare)

-- The label in whose scope the next lexeme stands.
def scopeAfter (parent : Option String) : Lexeme → Option String
  | .word first rest =>
    if Rune.ofChar? first = some .parentLabel then some (String.ofList (rest.takeWhile (· ≠ '/'))) else parent
  | _ => parent

theorem meaning_of_kind? (told : lexeme.kind? parent = some kind) :
    ∃ m, lexeme.meaning ⟨"", 1, 1⟩ parent (fun _ => false) = .ok m ∧ m.kind.bare = kind := by
  obtain ⟨m, meant, bare⟩ := Option.map_eq_some_iff.mp told
  exact ⟨m, eq_ok_of_toOption meant, bare⟩

theorem parentMeaning_bare (known known' : String → Bool) (name : List Char) :
    (parentMeaning known name).toOption.map (·.kind.bare) = (parentMeaning known' name).toOption.map (·.kind.bare) := by
  unfold parentMeaning
  dsimp only
  split
  · rfl
  · split
    · rename_i slash
      have slash : '/' ∈ name := by simpa using slash
      split
      · rfl
      · split <;> split <;> simp [Except.toOption, TokenKind.bare, slash]
    · rfl

theorem kind?_of_meaning {location : Location} {known : String → Bool} (meant : lexeme.meaning location parent known = .ok m) :
    lexeme.kind? parent = some m.kind.bare := by
  have said : (lexeme.meaning location parent known).toOption.map (·.kind.bare) = some m.kind.bare := by rw [meant]; rfl
  rw [← said]
  cases lexeme with
  | blank text => rfl
  | comment text closed => rfl
  | bracket c =>
    simp only [kind?, meaning, bracketMeaning]
    split_ifs <;> rfl
  | word first rest =>
    simp only [kind?, meaning, wordMeaning]
    split
    · rfl
    · split
      · rename_i rune _
        cases rune with
        | parentLabel => exact parentMeaning_bare (fun _ => false) known rest
        | _ => rfl
      · rfl

theorem scope_of_meaning {location : Location} {known : String → Bool} (meant : lexeme.meaning location parent known = .ok m) :
    m.scope parent = lexeme.scopeAfter parent := by
  cases lexeme with
  | blank text =>
    cases meant
    rfl
  | comment text closed =>
    cases closed <;> cases meant
    rfl
  | bracket c =>
    cases meant
    unfold bracketMeaning
    split_ifs <;> rfl
  | word first rest =>
    simp only [scopeAfter]
    rcases wordMeaning_ok meant with ⟨rune, found, meant⟩ | ⟨found, meant⟩
    · rw [found]
      cases rune with
      | parentLabel =>
        obtain ⟨_, _, _, scope⟩ := parentMeaning_ok meant
        exact scope parent
      | childLabel =>
        obtain ⟨label, _, rfl⟩ := childMeaning_ok meant
        rfl
      | reference form =>
        obtain ⟨target, rfl⟩ := referenceMeaning_ok meant
        rfl
      | rawText =>
        cases meant
        rfl
      | inclusion | macroDefinition =>
        simp only [runeMeaning] at meant
        rw [namedMeaning_ok meant]
        rfl
      | literalHex | padAbsolute | padRelative | retarget =>
        simp only [runeMeaning] at meant
        obtain ⟨n, _, rfl⟩ := numberMeaning_ok meant
        rfl
    · rw [found]
      rcases plainMeaning_ok meant with ⟨byte, rfl⟩ | ⟨n, width, rfl⟩ | meant
      · rfl
      · rfl
      · obtain ⟨target, rfl⟩ := referenceMeaning_ok meant
        rfl

end Lexeme

structure Mark where
  text : String
  location : Location
  kind : Option TokenKind

def Token.mark (t : Token) : Mark := ⟨t.text, t.location, some t.kind.bare⟩

def Event.isLexical : Event → Bool
  | .comment _ _ | .defined _ _ => true
  | _ => false

namespace Reader

variable {r next : Reader} {text word rest : List Char} {kind : TokenKind}

def marks (r : Reader) : List Mark := r.tokens.toList.map Token.mark

-- Only scope, table and journal may differ, and the journal has gained only what reading notes.
def Stays (r next : Reader) : Prop :=
  ∃ scope symbols notes, next = { r with scope, symbols, journal := notes ++ r.journal } ∧
    ∀ note ∈ notes, Event.isLexical note = true

-- One more token, whose text, place and meaning are known, and the scope after it.
structure Adds (r : Reader) (text : List Char) (meaning : Option TokenKind) (scope : Option String) (next : Reader) :
    Prop where
  marks : next.marks = r.marks ++ [⟨String.ofList text, r.location, meaning⟩]
  parent : next.parent = scope
  file : next.file = r.file
  place : next.place = r.place
  notes : ∃ notes, next.journal = notes ++ r.journal ∧ ∀ note ∈ notes, note.isLexical = true

theorem Stays.refl (r : Reader) : Stays r r := ⟨r.scope, r.symbols, [], rfl, by simp⟩

theorem Stays.enter {mid : Reader} (stays : Stays r mid) (name : String) : Stays r (mid.enter name) := by
  obtain ⟨_, symbols, notes, rfl, lexical⟩ := stays
  exact ⟨_, symbols, notes, rfl, lexical⟩

theorem Stays.note {mid : Reader} (stays : Stays r mid) (styles : List CommentStyle) : Stays r (mid.note styles) := by
  obtain ⟨scope, symbols, notes, rfl, lexical⟩ := stays
  refine ⟨scope, symbols, (styles.map (Event.comment r.location)).reverse ++ notes, by simp [Reader.note, location], ?_⟩
  intro note member
  rcases List.mem_append.mp member with new | old
  · obtain ⟨style, _, rfl⟩ := List.mem_map.mp (List.mem_reverse.mp new)
    rfl
  · exact lexical note old

variable {mid : Reader} {meaning : Option TokenKind} {scope : Option String}

theorem malformed_stays {good : Reader → Prop} (stays : Stays r mid) (fault : Malformed) :
    Leaves good (Stays r) (mid.malformed fault) := stays

theorem define_stays (stays : Stays r mid) (name : String) (anonymous : Bool) :
    Leaves (fun next => Stays r next ∧ next.parent = mid.parent) (Stays r) (mid.define name anonymous) := by
  unfold define
  split
  · rename_i symbols _
    obtain ⟨scope, _, notes, rfl, lexical⟩ := stays
    refine ⟨⟨scope, symbols, .defined name _ :: notes, rfl, ?_⟩, rfl⟩
    intro note member
    rcases List.mem_cons.mp member with rfl | old
    · rfl
    · exact lexical note old
  · exact stays

theorem push_adds (stays : Stays r mid) (same : some kind.bare = meaning) (inside : mid.parent = scope) :
    Leaves (Adds r text meaning scope) (Stays r) (mid.push text kind) := by
  obtain ⟨_, symbols, notes, rfl, lexical⟩ := stays
  refine ⟨?_, inside, rfl, rfl, notes, rfl, lexical⟩
  subst same
  simp [marks, tokens_toList, Token.mark, token, location]

theorem openBracket_adds (stays : Stays r mid) (same : some kind.bare = meaning) (inside : mid.parent = scope) :
    Leaves (Adds r text meaning scope) (Stays r) (mid.openBracket text kind) := by
  obtain ⟨_, symbols, notes, rfl, lexical⟩ := stays
  refine ⟨?_, inside, rfl, rfl, notes, rfl, lexical⟩
  subst same
  simp [marks, tokens_toList, outside_cons, Token.mark, token, location]

-- Closing a bracket gives its opener a partner and a label, neither of which a mark shows.
theorem closedBy_mark {opener : Token} {c : Char} (opens : opener.kind.closer? = some c) (closer : Nat)
    (label : Option String) : (opener.closedBy closer label).mark = opener.mark := by
  unfold Token.closedBy Token.mark
  split
  · rename_i reference kind
    rw [kind] at opens
    cases target : reference.target with
    | named name => simp [TokenKind.closer?, target] at opens
    | inline name => simp [kind, TokenKind.bare, target]
  · rfl

theorem pair_adds {frame : Frame} {outer : List Frame} {c : Char} (stays : Stays r mid)
    (frames : r.frames = frame :: outer) (opens : frame.opener.kind.closer? = some c)
    (same : some kind.bare = meaning) (inside : mid.parent = scope) :
    Adds r text meaning scope (mid.pair frame outer text kind) := by
  obtain ⟨_, symbols, notes, rfl, lexical⟩ := stays
  refine ⟨?_, inside, rfl, rfl, notes, rfl, lexical⟩
  subst same
  rw [marks, pair_tokens, marks, tokens_toList, frames, outside_cons]
  simp [closedBy_mark opens]
  simp [Token.mark, token, location]

theorem declares_stays (stays : Stays r mid) (ds : List Declaration) :
    Leaves (fun next => Stays r next ∧ next.parent = ds.foldl (fun inside d => d.enters.or inside) mid.parent) (Stays r)
      (Run.each declare mid ds) := by
  induction ds generalizing mid with
  | nil => exact ⟨stays, rfl⟩
  | cons d ds ih =>
    have entered : Stays r (d.enters.elim mid mid.enter) ∧ (d.enters.elim mid mid.enter).parent = d.enters.or mid.parent := by
      cases d.enters with
      | none => exact ⟨stays, rfl⟩
      | some name => exact ⟨stays.enter name, rfl⟩
    rw [each_cons]
    apply (define_stays entered.1 d.name d.anonymous).andThen
    rintro next ⟨there, parent⟩
    rw [List.foldl_cons, ← entered.2, ← parent]
    exact ih there

theorem accept_adds (stays : Stays r mid) (text : List Char) (m : Meaning) :
    Leaves (Adds r text (some m.kind.bare) (m.scope mid.parent)) (Stays r) (mid.accept text m) := by
  have frames : mid.frames = r.frames := by
    obtain ⟨_, _, _, rfl, _⟩ := stays
    rfl
  have declared := declares_stays stays m.declares
  unfold accept
  split
  · apply declared.andThen
    rintro next ⟨there, parent⟩
    unfold attach
    split
    · exact openBracket_adds there rfl parent
    · exact push_adds there rfl parent
  · rename_i c _
    split
    · exact stays
    · rename_i frame outer waiting
      rw [frames] at waiting
      by_cases opens : frame.opener.kind.closer? = some c
      · rw [if_neg (not_not.mpr opens)]
        apply declared.andThen
        rintro next ⟨there, parent⟩
        exact pair_adds there waiting opens rfl parent
      · rw [if_pos opens]
        exact stays

theorem take_adds (r : Reader) {lexeme : Lexeme} (proper : lexeme.Proper) :
    Leaves (Adds r lexeme.text (lexeme.kind? r.parent) (lexeme.scopeAfter r.parent)) (Stays r) (r.take lexeme) := by
  have remarked : Stays r (r.remark lexeme) ∧ (r.remark lexeme).parent = r.parent := by
    unfold remark
    split
    · split
      · exact ⟨(Stays.refl r).note _, rfl⟩
      · exact ⟨Stays.refl r, rfl⟩
    · exact ⟨Stays.refl r, rfl⟩
  rw [take_eq r proper]
  cases meant : lexeme.meaning r.location r.parent r.symbols.contains with
  | error fault => exact malformed_stays remarked.1 fault
  | ok m =>
    have adds := accept_adds remarked.1 lexeme.text m
    rw [remarked.2, Lexeme.scope_of_meaning meant, ← Lexeme.kind?_of_meaning meant] at adds
    exact adds

-- The marks of lexemes from a place on, in the scope of a label.
def stamps (file : String) : Nat × Nat → Option String → List Lexeme → List Mark
  | _, _, [] => []
  | place, parent, lexeme :: rest =>
    ⟨String.ofList lexeme.text, ⟨file, place.1, place.2⟩, lexeme.kind? parent⟩ ::
      stamps file (lexeme.text.foldl passed place) (lexeme.scopeAfter parent) rest

structure Scans (r : Reader) (lexemes : List Lexeme) (next : Reader) : Prop where
  marks : next.marks = r.marks ++ stamps r.file r.place r.parent lexemes
  notes : ∃ notes, next.journal = notes ++ r.journal ∧ ∀ note ∈ notes, note.isLexical = true

theorem Stays.scans (stays : Stays r next) : Scans r [] next := by
  obtain ⟨scope, symbols, notes, rfl, lexical⟩ := stays
  exact ⟨by simp [stamps, Reader.marks, tokens_toList], notes, rfl, lexical⟩

theorem Adds.scans {lexeme : Lexeme} {lexemes : List Lexeme}
    (adds : Adds r lexeme.text (lexeme.kind? r.parent) (lexeme.scopeAfter r.parent) mid)
    (scans : Scans (lexeme.text.foldl advance mid) lexemes next) : Scans r (lexeme :: lexemes) next := by
  obtain ⟨line, column, moved⟩ := foldl_advance lexeme.text mid
  obtain ⟨marks, early, journal, earlyLexical⟩ := scans
  have place := place_foldl_advance lexeme.text mid
  rw [moved] at marks journal place
  obtain ⟨late, noted, lateLexical⟩ := adds.notes
  refine ⟨?_, early ++ late, ?_, ?_⟩
  · have tokens : Reader.marks { mid with line, column } = mid.marks := rfl
    have parent : Reader.parent { mid with line, column } = mid.parent := rfl
    rw [marks, place, tokens, parent, adds.marks, adds.parent, adds.place, adds.file, List.append_assoc]
    rfl
  · rw [journal, noted, List.append_assoc]
  · intro note member
    rcases List.mem_append.mp member with new | old
    · exact earlyLexical note new
    · exact lateLexical note old

-- Where the reading stops, the tokens are those of the lexemes before.
theorem each_scans (r : Reader) {lexemes : List Lexeme} (proper : ∀ lexeme ∈ lexemes, lexeme.Proper) :
    Leaves (Scans r lexemes) (fun next => ∃ front back, lexemes = front ++ back ∧ Scans r front next)
      (Run.each step r lexemes) := by
  induction lexemes generalizing r with
  | nil => exact (Stays.refl r).scans
  | cons lexeme lexemes ih =>
    have adds := take_adds r (proper lexeme List.mem_cons_self)
    rw [each_cons, step]
    cases taken : r.take lexeme with
    | ok mid =>
      have added := adds.ok taken
      apply (ih (lexeme.text.foldl advance mid) fun other member => proper other (List.mem_cons_of_mem _ member)).mono
      · intro next scans
        exact added.scans scans
      · rintro next ⟨front, back, rfl, scans⟩
        exact ⟨lexeme :: front, back, rfl, added.scans scans⟩
    | error stop => exact ⟨[], lexeme :: lexemes, rfl, (adds.error taken).scans⟩

theorem run_scans (r : Reader) :
    Leaves (Scans r (Lexeme.all r.source))
      (fun next => ∃ front back, Lexeme.all r.source = front ++ back ∧ Scans r front next) r.run := by
  have partly (next : Reader) (scans : Scans r (Lexeme.all r.source) next) :
      ∃ front back, Lexeme.all r.source = front ++ back ∧ Scans r front next :=
    ⟨Lexeme.all r.source, [], (List.append_nil _).symm, scans⟩
  apply (each_scans r (Lexeme.all_proper r.source)).andThen
  intro last scans
  unfold finish
  split
  · exact scans
  · exact partly last scans

theorem foldl_passed_start (text : List Char) :
    text.foldl passed (1, 1) = (1 + text.count '\n', 1 + (text.rtakeWhile (· ≠ '\n')).length) := by
  induction text using List.reverseRecOn with
  | nil => rfl
  | append_singleton text c ih =>
    rw [List.foldl_concat, ih, List.count_append, List.rtakeWhile_concat]
    unfold passed
    by_cases newline : c = '\n'
    · simp [newline, Nat.add_assoc]
    · simp [newline, Nat.add_assoc]

variable {file : String} {place : Nat × Nat} {tokens : List Token} {lexemes : List Lexeme}

theorem source_toList (tokens : List Token) : (Token.source tokens).toList = tokens.flatMap (·.text.toList) := by
  rw [Token.source, String.toList_join, List.flatMap_map]

-- A mark is what one of the lexemes says in some scope.
theorem mem_stamps {parent : Option String} {mark : Mark} (member : mark ∈ stamps file place parent lexemes) :
    ∃ lexeme ∈ lexemes, mark.text = String.ofList lexeme.text ∧ ∃ inside, mark.kind = lexeme.kind? inside := by
  induction lexemes generalizing place parent with
  | nil => cases member
  | cons lexeme lexemes ih =>
    rcases List.mem_cons.mp member with rfl | later
    · exact ⟨lexeme, List.mem_cons_self, rfl, parent, rfl⟩
    · obtain ⟨other, there, told⟩ := ih later
      exact ⟨other, List.mem_cons_of_mem _ there, told⟩

theorem source_of_stamps (same : tokens.map Token.mark = stamps file place scope lexemes) :
    (Token.source tokens).toList = lexemes.flatMap Lexeme.text := by
  rw [source_toList]
  induction lexemes generalizing tokens place scope with
  | nil => simp [List.map_eq_nil_iff.mp same]
  | cons lexeme lexemes ih =>
    obtain ⟨t, rest, rfl, first, later⟩ := List.map_eq_cons_iff.mp same
    have text : t.text = String.ofList lexeme.text := congrArg Mark.text first
    rw [List.flatMap_cons, List.flatMap_cons, ih later, text, String.toList_ofList]

-- The place of a token follows from the texts before it.
theorem location_of_stamps {front back : List Token} {t : Token}
    (same : (front ++ t :: back).map Token.mark = stamps file place scope lexemes) :
    t.location = (fun p : Nat × Nat => ⟨file, p.1, p.2⟩) ((Token.source front).toList.foldl passed place) ∧
      ∃ lexeme ∈ lexemes, t.text = String.ofList lexeme.text := by
  rw [source_toList]
  induction front generalizing place scope lexemes with
  | nil =>
    cases lexemes with
    | nil => cases same
    | cons lexeme lexemes =>
      have first := (List.cons.inj same).1
      exact ⟨congrArg Mark.location first, lexeme, by simp, congrArg Mark.text first⟩
  | cons u front ih =>
    cases lexemes with
    | nil => cases same
    | cons lexeme lexemes =>
      obtain ⟨first, later⟩ := List.cons.inj same
      have text : u.text = String.ofList lexeme.text := congrArg Mark.text first
      obtain ⟨location, other, member, itsText⟩ := ih later
      refine ⟨?_, other, List.mem_cons_of_mem _ member, itsText⟩
      rw [location, List.flatMap_cons, List.foldl_append, text, String.toList_ofList]

-- Reading starts at the first line and column with nothing read; whatever scope, labels and notes it starts with,
-- and whether or not it comes to the end, it covers the text from the start without gaps.
theorem run_covers_source (file : String) (source : List Char) (checkComments : Bool) (scope : Scope)
    (symbols : SymbolTable) (journal : Journal) (nextId : Nat) :
    let outcome := ({ file, source, checkComments, scope, symbols, journal, nextId } : Reader).run
    let tokens := outcome.state.tokens.toList
    (∀ r, outcome = .ok r → Token.source tokens = String.ofList source) ∧
      (Token.source tokens).toList <+: source ∧
      ∀ front t back, tokens = front ++ t :: back →
        t.text ≠ "" ∧
        t.location = ⟨file, 1 + (Token.source front).toList.count '\n',
          1 + ((Token.source front).toList.rtakeWhile (· ≠ '\n')).length⟩ := by
  intro outcome tokens
  let start : Reader := { file, source, checkComments, scope, symbols, journal, nextId }
  have scans := run_scans start
  have covered {lexemes : List Lexeme} (scanned : Scans start lexemes outcome.state) :
      tokens.map Token.mark = stamps file (1, 1) (scope.parent.map (·.1)) lexemes := scanned.marks
  obtain ⟨read, unread, split, scanned⟩ := (scans.mono
    (fun _ whole => ⟨Lexeme.all source, [], (List.append_nil _).symm, whole⟩) (fun _ partly => partly)).state
  have marks := covered scanned
  refine ⟨?_, ?_, ?_⟩
  · intro r ran
    have whole := scans.ok ran
    have state : outcome.state = r := congrArg Run.state ran
    rw [← state] at whole
    apply String.toList_inj.mp
    rw [source_of_stamps (covered whole), Lexeme.all_text, String.toList_ofList]
  · refine ⟨unread.flatMap Lexeme.text, ?_⟩
    rw [source_of_stamps marks, ← List.flatMap_append, ← split, Lexeme.all_text]
  · intro front t back found
    rw [found] at marks
    obtain ⟨location, lexeme, member, text⟩ := location_of_stamps marks
    refine ⟨?_, by rw [location, foldl_passed_start]; push_cast; rfl⟩
    have proper : lexeme.Proper := Lexeme.all_proper source lexeme (by rw [split]; simp [member])
    intro empty
    rw [text] at empty
    exact Lexeme.text_ne_nil proper (by simpa using empty)

-- The comment of the third line is never closed; the words before it are read and placed.
theorem run_covers_source_unclosed :
    ∃ front t back,
      (Reader.run ⟨"f", "@a\n #01\n ( x".toList, true, {}, {}, [], 0, 1, 1, [], #[]⟩).state.tokens.toList =
        front ++ t :: back ∧
      Token.source front = "@a\n " ∧ t.text ≠ "" ∧ t.location = ⟨"f", 2, 2⟩ := by
  have covers := run_covers_source "f" "@a\n #01\n ( x".toList true {} {} [] 0
  have texts : (Reader.run ⟨"f", "@a\n #01\n ( x".toList, true, {}, {}, [], 0, 1, 1, [], #[]⟩).state.tokens.toList.map
      (·.text) = ["@a", "\n "] ++ "#01" :: ["\n "] := by decide +kernel
  obtain ⟨front, rest, split, early, late⟩ := List.map_eq_append_iff.mp texts
  obtain ⟨t, back, rfl, _, _⟩ := List.map_eq_cons_iff.mp late
  have before : Token.source front = "@a\n " := by rw [Token.source, early]; decide +kernel
  obtain ⟨nonempty, location⟩ := covers.2.2 front t back split
  rw [before] at location
  exact ⟨front, t, back, split, before, nonempty, by rw [location]; decide +kernel⟩

end Reader

end RuneAsm
