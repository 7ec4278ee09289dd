import Mathlib
import RuneAsm.Proofs.Bracketing
import RuneAsm.Proofs.Declaring
import RuneAsm.Proofs.Respacing.Words
import RuneAsm.Proofs.Splicing.Texts

namespace RuneAsm

open Run

-- Other gaps around the same tokens. What a text consists of besides blanks can be taken apart and put together with
-- any blanks in between, and it is read as the same tokens. Only the labels of inline subroutines follow the new places
-- of the braces that close them.

namespace Lexeme

variable {lexeme : Lexeme} {lexemes : List Lexeme} {text rest gap xs : List Char} {c : Char} {n : Nat}

def isGap : Lexeme → Bool
  | .blank _ => true
  | _ => false

-- What a blank after it leaves as it is.
def Standing (lexeme : Lexeme) : Prop :=
  ∃ c chars, lexeme.text = c :: chars ∧ isBlank c = false ∧
    ∀ blank rest, isBlank blank = true → next c (chars ++ blank :: rest) = (lexeme, blank :: rest)

theorem commentLength_take {depth : Nat} (closed : commentLength depth xs = some n) :
    commentLength depth (xs.take n) = some n := by
  induction xs generalizing depth n with
  | nil => rwa [List.take_nil]
  | cons c xs ih =>
    cases depth with
    | zero =>
      cases closed
      rfl
    | succ depth =>
      obtain ⟨m, inner, rfl⟩ := Option.map_eq_some_iff.mp closed
      rw [List.take_succ_cons, commentLength]
      simp only [ih inner]
      rfl

theorem next_standing (c : Char) (rest : List Char) (solid : (next c rest).1.isGap = false)
    (finished : (next c rest).1.Finished) : (next c rest).1.Standing := by
  by_cases blank : isBlank c = true
  · simp [next, blank, isGap] at solid
  · have visible : isBlank c = false := by simpa using blank
    by_cases comment : c = '('
    · subst comment
      cases closed : commentLength 1 rest with
      | none => simp [next, visible, closed, Finished] at finished
      | some n =>
        refine ⟨'(', rest.take n, by simp [next, visible, closed, Lexeme.text], visible, ?_⟩
        intro gap more _
        obtain ⟨still, within⟩ := commentLength_append (commentLength_take closed) (gap :: more)
        have length : (rest.take n).length = n := le_antisymm (by simp) within
        simp [next, visible, closed, still, length]
    · by_cases bracket : isBracket c = true
      · refine ⟨c, [], by simp [next, visible, comment, bracket, Lexeme.text], visible, ?_⟩
        intro gap more _
        simp [next, visible, comment, bracket]
      · refine ⟨c, rest.takeWhile (!isBlank ·), by simp [next, visible, comment, bracket, Lexeme.text], visible, ?_⟩
        have word : ∀ x ∈ rest.takeWhile (!isBlank ·), (!isBlank x) = true := by
          intro x member
          exact List.mem_takeWhile_imp (p := (!isBlank ·)) member
        intro gap more isGap
        simp [next, visible, comment, bracket, List.takeWhile_append_of_pos word, List.dropWhile_append_of_pos word, isGap]

theorem all_standing (finished : ∀ lexeme ∈ all text, lexeme.Finished) :
    ∀ lexeme ∈ all text, lexeme.isGap = false → lexeme.Standing := by
  induction text using all.induct with
  | case1 => simp [all]
  | case2 c rest ih =>
    intro lexeme member solid
    rw [all] at member finished
    rcases List.mem_cons.mp member with rfl | later
    · exact next_standing c rest solid (finished _ List.mem_cons_self)
    · exact ih (fun other inRest => finished other (List.mem_cons_of_mem _ inRest)) lexeme later solid

end Lexeme

-- Words with blanks before each of them and after the last.
inductive Spaced : List (List Char) → List Char → Prop
  | last {gap : List Char} : gap ≠ [] → (∀ c ∈ gap, isBlank c = true) → Spaced [] gap
  | word {gap word text : List Char} {words : List (List Char)} : gap ≠ [] → (∀ c ∈ gap, isBlank c = true) →
      Spaced words text → Spaced (word :: words) (gap ++ (word ++ text))

theorem Spaced.opens {words : List (List Char)} {text : List Char} (spaced : Spaced words text) :
    ∃ blank rest, isBlank blank = true ∧ text = blank :: rest := by
  cases spaced with
  | last some blank | word some blank _ =>
    obtain ⟨first, more, rfl⟩ := List.exists_cons_of_ne_nil some
    exact ⟨first, _, blank first List.mem_cons_self, rfl⟩

namespace Lexeme

variable {lexemes : List Lexeme} {text rest gap : List Char} {c : Char}

theorem all_gap (some : gap ≠ []) (blank : ∀ c ∈ gap, isBlank c = true) (stop : ∀ c ∈ rest.head?, isBlank c = false) :
    all (gap ++ rest) = .blank gap :: all rest := by
  obtain ⟨first, more, rfl⟩ := List.exists_cons_of_ne_nil some
  have here := blank first List.mem_cons_self
  have later : ∀ c ∈ more, isBlank c = true := fun c member => blank c (List.mem_cons_of_mem _ member)
  have taken : rest.takeWhile isBlank = [] := by
    cases rest with
    | nil => rfl
    | cons c _ => simp [stop c rfl]
  have dropped : rest.dropWhile isBlank = rest := by
    cases rest with
    | nil => rfl
    | cons c _ => simp [stop c rfl]
  rw [List.cons_append, all]
  simp only [next, here, if_true, List.takeWhile_append_of_pos later, List.dropWhile_append_of_pos later, taken, dropped,
    List.append_nil]

-- A text made of lexemes that stand by themselves falls into them again.
theorem all_spaced (standing : ∀ lexeme ∈ lexemes, lexeme.isGap = false ∧ lexeme.Standing)
    (spaced : Spaced (lexemes.map Lexeme.text) text) : (all text).filter (!·.isGap) = lexemes := by
  induction lexemes generalizing text with
  | nil =>
    cases spaced with
    | last some blank =>
      have whole : all (text ++ []) = .blank text :: all [] := all_gap some blank (by simp)
      rw [List.append_nil, all] at whole
      rw [whole]
      rfl
  | cons lexeme rest ih =>
    cases spaced with
    | @word gap _ more _ some blank later =>
      obtain ⟨solid, c, chars, parts, visible, stands⟩ := standing lexeme List.mem_cons_self
      obtain ⟨first, others, isBlank, opens⟩ := later.opens
      have again := ih (fun other member => standing other (List.mem_cons_of_mem _ member)) later
      rw [all_gap some blank (by simp [parts, visible]), parts, opens, List.cons_append, all, stands first others isBlank,
        ← opens, List.filter_cons_of_neg (by simp [isGap]), List.filter_cons_of_pos (by simp [solid]), again]

end Lexeme

section

variable {A B C : Type} {R : A → C → Prop} {S : B → C → Prop} {xs : List A} {ys : List B} {zs : List C}

theorem agree_through (first : List.Forall₂ R xs zs) (second : List.Forall₂ S ys zs) :
    List.Forall₂ (fun x y => ∃ z, R x z ∧ S y z) xs ys := by
  induction first generalizing ys with
  | nil =>
    cases second
    exact .nil
  | cons here _ ih =>
    obtain ⟨y, others, there, rest, rfl⟩ := List.forall₂_cons_right_iff.mp second
    exact .cons ⟨_, here, there⟩ (ih rest)

-- What is known of some of the pairs is put beside what is known of all.
theorem agree_beside {T T' : A → B → Prop} {counts : A → Bool} {counts' : B → Bool} (whole : List.Forall₂ T xs ys)
    (same : ∀ x y, T x y → counts x = counts' y) (part : List.Forall₂ T' (xs.filter counts) (ys.filter counts')) :
    List.Forall₂ (fun x y => T x y ∧ (counts x = true → T' x y)) xs ys := by
  induction whole with
  | nil => exact .nil
  | @cons x y _ _ here _ ih =>
    cases counted : counts x with
    | false =>
      rw [List.filter_cons_of_neg (by simp [counted]), List.filter_cons_of_neg (by simp [← same x y here, counted])] at part
      exact .cons ⟨here, by simp [counted]⟩ (ih part)
    | true =>
      rw [List.filter_cons_of_pos counted, List.filter_cons_of_pos (by rw [← same x y here, counted])] at part
      obtain ⟨first, rest⟩ := List.forall₂_cons.mp part
      exact .cons ⟨here, fun _ => first⟩ (ih rest)

end

namespace TokenKind

variable {σ : String → String} {kind : TokenKind}

-- The labels of inline subroutines, and no others, passed through a function.
def mapBrace (f : String → String) : TokenKind → TokenKind
  | .subroutineClose label => .subroutineClose (f label)
  | .reference r =>
    match r.target with
    | .named _ => .reference r
    | .inline label => .reference { r with target := .inline (label.map f) }
  | kind => kind

theorem mapLabel_eq_mapBrace (fixes : ∀ x, Plain x → σ x = x) (regular : kind.Regular) :
    kind.mapLabel σ = kind.mapBrace σ := by
  cases kind with
  | parentLabel label implied => simp [mapLabel, mapBrace, fixes label regular.1]
  | childLabel label => simp [mapLabel, mapBrace, fixes label regular]
  | reference r =>
    obtain ⟨form, mode, instruction, target⟩ := r
    cases target with
    | named label =>
      have plain : Plain label := regular.2.1
      simp [mapLabel, mapBrace, fixes label plain]
    | «inline» label => rfl
  | _ => rfl

theorem bracket?_mapBrace : (kind.mapBrace σ).bracket? = kind.bracket? := by
  cases kind with
  | reference r => cases target : r.target <;> simp [mapBrace, bracket?, target]
  | _ => rfl

theorem eq_comment (spacing : kind.isSpacing = true) (seen : kind ≠ .blank) : kind = .comment := by
  cases kind <;> first | rfl | exact absurd rfl seen | cases spacing

end TokenKind

-- The tokens other than blanks; comments are among them.
def visible (tokens : List Token) : List Token := tokens.filter (·.kind ≠ .blank)

structure Token.ReadFrom (t : Token) (lexeme : Lexeme) : Prop where
  text : t.text = String.ofList lexeme.text
  said : ∃ parent, lexeme.kind? parent = some t.kind.bare

theorem Token.ReadFrom.isSpacing {t : Token} {lexeme : Lexeme} (readFrom : t.ReadFrom lexeme) :
    t.kind.isSpacing = lexeme.isSpacing := by
  obtain ⟨parent, said⟩ := readFrom.said
  exact Expander.isSpacing_of_said said

theorem Token.ReadFrom.isGap {t : Token} {lexeme : Lexeme} (readFrom : t.ReadFrom lexeme) :
    t.kind ≠ .blank ↔ lexeme.isGap = false := by
  obtain ⟨parent, said⟩ := readFrom.said
  have spacing := Expander.isSpacing_of_said said
  have blank : t.kind.bare = .blank ↔ t.kind = .blank :=
    iff_of_eq (t.kind.bare_congr (· = .blank) (by simp) (by simp) (by simp))
  have solid (sort : lexeme.isSpacing = false) : t.kind ≠ .blank := by
    intro here
    rw [here, sort] at spacing
    cases spacing
  cases lexeme with
  | blank text =>
    have said : TokenKind.blank = t.kind.bare := Option.some.inj said
    simp [← blank, ← said, Lexeme.isGap]
  | comment text closed =>
    cases closed with
    | false => cases said
    | true =>
      have said : TokenKind.comment = t.kind.bare := Option.some.inj said
      simp [Ne, ← blank, ← said, Lexeme.isGap]
  | bracket c => simp [solid rfl, Lexeme.isGap]
  | word first rest => simp [solid rfl, Lexeme.isGap]

theorem readFrom_of_stamps {file : String} {place : Nat × Nat} {parent : Option String} {tokens : List Token}
    {lexemes : List Lexeme} (same : tokens.map Token.mark = Reader.stamps file place parent lexemes) :
    List.Forall₂ Token.ReadFrom tokens lexemes := by
  induction lexemes generalizing tokens place parent with
  | nil =>
    rw [List.map_eq_nil_iff.mp same]
    exact .nil
  | cons lexeme lexemes ih =>
    obtain ⟨t, rest, rfl, first, later⟩ := List.map_eq_cons_iff.mp same
    exact .cons ⟨congrArg Mark.text first, parent, (congrArg Mark.kind first).symm⟩ (ih later)

theorem readFrom_visible {tokens : List Token} {lexemes : List Lexeme} (whole : List.Forall₂ Token.ReadFrom tokens lexemes) :
    List.Forall₂ Token.ReadFrom (visible tokens) (lexemes.filter (!·.isGap)) := by
  refine List.rel_filter ?_ whole
  intro t lexeme readFrom
  simpa using readFrom.isGap

theorem unspaced_visible (tokens : List Token) : (visible tokens).filter (!·.kind.isSpacing) = unspaced tokens := by
  rw [visible, List.filter_filter]
  apply List.filter_congr
  intro t _
  cases kind : t.kind <;> simp [TokenKind.isSpacing]

def Mates (tokens : List Token) (i j : Nat) : Prop :=
  ∃ t u, tokens[i]? = some t ∧ tokens[j]? = some u ∧ t.partner = some u.id

section

variable {tokens tokens' : List Token} {t : Token} {i j : Nat}

theorem balanced_visible (balanced : Balanced tokens) : Balanced (visible tokens) := by
  apply balanced.filter
  intro opener closer pairs
  obtain ⟨c, opens, closes⟩ := pairs.bracket
  have first : opener.kind ≠ .blank := by
    intro blank
    rw [blank] at opens
    cases opens
  have second : closer.kind ≠ .blank := by
    intro blank
    rw [blank] at closes
    cases closes
  simp [first, second]

theorem Balanced.partner_isSome (balanced : Balanced tokens) (serials : (tokens.map (·.id)).Nodup) (member : t ∈ tokens) :
    t.partner.isSome = t.kind.bracket?.isSome := by
  cases opens : t.kind.closer? with
  | some c =>
    obtain ⟨u, pairs, _⟩ := balanced.matching_of_opener member opens
    obtain ⟨o, bracket, _⟩ := TokenKind.bracket?_of_closer? opens
    rw [pairs.forth, bracket]
    rfl
  | none =>
    cases closes : t.kind.closes? with
    | some c =>
      obtain ⟨u, pairs, _⟩ := balanced.matching_of_closer serials member closes
      rw [pairs.back, (TokenKind.bracket?_of_closes? closes).1]
      rfl
    | none =>
      obtain ⟨front, back, rfl⟩ := List.append_of_mem member
      obtain ⟨_, _, later⟩ := Nesting.split balanced
      rw [(later.of_plain opens closes).1, TokenKind.bracket?_eq_none opens closes]
      rfl

theorem position_eq {front back : List Token} (serials : (tokens.map (·.id)).Nodup) (parts : tokens = front ++ t :: back)
    (found : tokens[i]? = some t) : i = front.length := by
  have within : i < tokens.length := (List.getElem?_eq_some_iff.mp found).1
  refine (List.getElem?_inj within serials.of_map).mp ?_
  rw [found, parts]
  simp

-- Brackets at the same places are matched at the same places.
theorem matching_transfer {opener closer : Token} (serials : (tokens.map (·.id)).Nodup)
    (brackets : tokens'.map (·.kind.bracket?) = tokens.map (·.kind.bracket?)) (matching : Matching tokens opener closer)
    (first : tokens[i]? = some opener) (second : tokens[j]? = some closer) :
    ∃ opener' closer', tokens'[i]? = some opener' ∧ tokens'[j]? = some closer' ∧ Matching tokens' opener' closer' := by
  obtain ⟨front, inside, back, c, parts, opens, closes, nested⟩ := matching
  have place := position_eq serials parts first
  have place' := position_eq serials (parts.trans (List.append_assoc front (opener :: inside) (closer :: back)).symm) second
  rw [parts, List.map_append, List.map_cons, List.map_append, List.map_cons] at brackets
  obtain ⟨front', rest, rfl, early, late⟩ := List.map_eq_append_iff.mp brackets
  obtain ⟨opener', rest, rfl, opening, late⟩ := List.map_eq_cons_iff.mp late
  obtain ⟨inside', rest, rfl, inner, late⟩ := List.map_eq_append_iff.mp late
  obtain ⟨closer', back', rfl, closing, _⟩ := List.map_eq_cons_iff.mp late
  have before : front'.length = front.length := by simpa using congrArg List.length early
  have between : inside'.length = inside.length := by simpa using congrArg List.length inner
  have word (some : List Token) : bracketsOf some = (some.map (·.kind.bracket?)).filterMap id := by
    simp [bracketsOf, List.filterMap_map]
  refine ⟨opener', closer', ?_, ?_, front', inside', back', c, rfl, ?_, ?_, ?_⟩
  · simp [place, ← before]
  · rw [place', ← List.cons_append, ← List.append_assoc]
    simp [← before, ← between]
  · rwa [TokenKind.closer?_eq, opening, ← TokenKind.closer?_eq]
  · rwa [TokenKind.closes?_eq, closing, ← TokenKind.closes?_eq]
  · rwa [word inside', inner, ← word inside]

theorem mates_transfer (balanced : Balanced tokens) (serials : (tokens.map (·.id)).Nodup) (balanced' : Balanced tokens')
    (brackets : tokens'.map (·.kind.bracket?) = tokens.map (·.kind.bracket?)) (mates : Mates tokens i j) :
    Mates tokens' i j := by
  obtain ⟨t, u, first, second, partner⟩ := mates
  obtain ⟨v, same, matched⟩ := (balanced.partner_iff serials (List.mem_of_getElem? first) u.id).mp partner
  have there : v ∈ tokens := by
    rcases matched with ⟨_, _, _, _, rfl, _⟩ | ⟨_, _, _, _, rfl, _⟩ <;> simp
  obtain rfl := List.inj_on_of_nodup_map serials there (List.mem_of_getElem? second) same
  rcases matched with forth | back
  · obtain ⟨opener, closer, here, beyond, matching⟩ := matching_transfer serials brackets forth first second
    exact ⟨opener, closer, here, beyond, (balanced'.pairs_of_matching matching).forth⟩
  · obtain ⟨opener, closer, beyond, here, matching⟩ := matching_transfer serials brackets back second first
    exact ⟨closer, opener, here, beyond, (balanced'.pairs_of_matching matching).back⟩

end

theorem mem_declarations {file : String} {place : Nat × Nat} {parent : Option String} {table : SymbolTable}
    {lexemes : List Lexeme} {s : Symbol} (member : s ∈ declarations file place parent table lexemes)
    (anonymous : s.anonymous = true) : s.name = Token.anonymousLabel s.location := by
  induction lexemes generalizing place parent table with
  | nil => cases member
  | cons lexeme rest ih =>
    rcases List.mem_append.mp member with here | later
    · cases lexeme with
      | blank | comment => cases here
      | bracket c =>
        simp only [Lexeme.labels] at here
        split at here
        · rw [List.mem_singleton.mp here]
        · cases here
      | word first chars =>
        simp only [Lexeme.labels] at here
        split at here
        · obtain ⟨_, _, rfl⟩ := List.mem_map.mp here
          cases anonymous
        · split at here
          · obtain ⟨_, _, rfl⟩ := List.mem_map.mp here
            cases anonymous
          · cases here
    · exact ih later

namespace Reader

variable {r next : Reader} {file : String} {scope : Scope} {symbols : SymbolTable}

theorem closer_label {t : Token} {label : String} (fresh : r.written = []) (ran : r.run = .ok next)
    (member : t ∈ next.tokens.toList) (kind : t.kind = .subroutineClose label) :
    label = Token.anonymousLabel t.location := by
  have entered : (⟨label, t.location, none, true⟩ : Symbol) ∈ next.written := by
    refine List.mem_flatMap.mpr ⟨t, member, ?_⟩
    simp [Token.symbols, kind, TokenKind.places, TokenKind.closes?]
  rw [run_written ran, fresh, List.nil_append] at entered
  exact mem_declarations entered rfl

-- What a text may find when it is read: the scope of a word, and a table of words and of labels from other texts.
structure Foreign (file : String) (scope : Scope) (symbols : SymbolTable) : Prop where
  inScope : InScope scope
  distinct : symbols.Distinct
  plain : ∀ s ∈ symbols.entries, s.anonymous = false → Plain s.name
  apart : ∀ s ∈ symbols.entries, ∀ line column,
    ¬ (Token.anonymousLabel ⟨file, line, column⟩).toList <+: s.name.toList

-- The same token at another place. Whether it has a partner is known before where that stands.
structure Counterpart (σ : String → String) (t t' : Token) : Prop where
  text : t'.text = t.text
  kind : t'.kind = t.kind.mapBrace σ
  paired : t'.partner.isSome = t.partner.isSome
  label : ∀ label, t.kind = .subroutineClose label →
    label = Token.anonymousLabel t.location ∧ σ label = Token.anonymousLabel t'.location

structure Begins (r : Reader) : Prop where
  frames : r.frames = []
  latest : r.latest = #[]
  foreign : Foreign r.file r.scope r.symbols

structure Yields (source : List Char) (next : Reader) : Prop where
  readFrom : List.Forall₂ Token.ReadFrom next.tokens.toList (Lexeme.all source)
  finished : ∀ lexeme ∈ Lexeme.all source, lexeme.Finished
  orderly : Orderly next.tokens.toList
  serials : (next.tokens.toList.map (·.id)).Nodup
  labels : ∀ t ∈ next.tokens.toList, ∀ label, t.kind = .subroutineClose label → label = Token.anonymousLabel t.location

theorem Begins.tokens (begins : Begins r) : r.tokens.toList = [] := by
  rw [tokens_toList, begins.frames, begins.latest]
  rfl

theorem Begins.yields (begins : Begins r) (ran : r.run = .ok next) : Yields r.source next := by
  have nothing := begins.tokens
  have coherent := coherent_start begins.foreign.distinct begins.foreign.inScope begins.frames begins.latest
  obtain ⟨after, orderly⟩ := (run_coherent coherent).ok ran
  obtain ⟨count, _, serials⟩ := after.serials
  have marks := ((run_scans r).ok ran).marks
  rw [Reader.marks, Reader.marks, nothing, List.map_nil, List.nil_append] at marks
  obtain ⟨walked, _⟩ := run_eq_ok ran
  have written : r.written = [] := by simp [written, nothing]
  exact ⟨readFrom_of_stamps marks, (each_words begins.foreign.inScope (Lexeme.all_proper _) walked).2, orderly,
    serials ▸ List.nodup_range', fun t member label kind => closer_label written ran member kind⟩

-- The words of a text, with their comments, decide how it is read.
theorem Begins.again {text : List Char} (begins : Begins r) (ran : r.run = .ok next)
    (same : (Lexeme.all text).filter (!·.isGap) = (Lexeme.all r.source).filter (!·.isGap)) :
    ∃ next' σ, { r with source := text }.run = .ok next' ∧ Renaming σ ∧
      Twins σ next.tokens.toList next'.tokens.toList := by
  have finished := (begins.yields ran).finished
  have finished' : ∀ lexeme ∈ Lexeme.all text, lexeme.Finished := by
    intro lexeme member
    cases gap : lexeme.isGap with
    | true =>
      cases lexeme with
      | blank => trivial
      | _ => cases gap
    | false =>
      have kept : lexeme ∈ (Lexeme.all text).filter (!·.isGap) := List.mem_filter.mpr ⟨member, by simp [gap]⟩
      rw [same] at kept
      exact finished lexeme (List.mem_of_mem_filter kept)
  have solid (some : List Char) :
      (Lexeme.all some).filter (!·.isSpacing) = ((Lexeme.all some).filter (!·.isGap)).filter (!·.isSpacing) := by
    rw [List.filter_filter]
    apply List.filter_congr
    intro lexeme _
    cases lexeme <;> rfl
  have words : (Lexeme.all r.source).filter (!·.isSpacing) = (Lexeme.all text).filter (!·.isSpacing) := by
    rw [solid, solid, same]
  obtain ⟨σ, renames, labels, fixed⟩ := exists_labels_beside r.file r.place r.place words
  have table : SymbolTable.Like σ r.symbols r.symbols := by
    apply List.forall₂_same.mpr
    intro s member
    exact ⟨(fixed s.name (begins.foreign.apart s member)).symm, rfl, rfl, begins.foreign.plain s member⟩
  have like : Like σ r { r with source := text } :=
    ⟨rfl, rfl, table, by simp [begins.latest, Twins, unspaced], by simp [begins.frames]⟩
  have start : Abreast σ (Lexeme.all r.source) (Lexeme.all text) r { r with source := text } :=
    ⟨like, begins.foreign.inScope, Lexeme.all_proper _, finished, finished', labels⟩
  have alike : Alike _ r.run { r with source := text }.run := run_like renames start words
  obtain ⟨next', ran', _, twins⟩ := alike.ok ran
  exact ⟨next', σ, ran', renames, twins⟩

theorem Yields.spelled {source text : List Char} (yields : Yields source next)
    (spaced : Spaced ((visible next.tokens.toList).map (·.text.toList)) text) :
    (Lexeme.all text).filter (!·.isGap) = (Lexeme.all source).filter (!·.isGap) := by
  have readFrom := readFrom_visible yields.readFrom
  have texts : (visible next.tokens.toList).map (·.text.toList) =
      ((Lexeme.all source).filter (!·.isGap)).map Lexeme.text := by
    rw [← List.forall₂_eq_eq_eq, List.forall₂_map_left_iff, List.forall₂_map_right_iff]
    apply readFrom.imp
    intro t lexeme said
    rw [said.text, String.toList_ofList]
  rw [texts] at spaced
  refine Lexeme.all_spaced ?_ spaced
  intro lexeme member
  obtain ⟨inside, solid⟩ := List.mem_filter.mp member
  have solid : lexeme.isGap = false := by simpa using solid
  exact ⟨solid, Lexeme.all_standing yields.finished lexeme inside solid⟩

theorem Yields.balanced {source : List Char} (yields : Yields source next) :
    Balanced (visible next.tokens.toList) ∧ ((visible next.tokens.toList).map (·.id)).Nodup :=
  ⟨balanced_visible yields.orderly.balanced, yields.serials.sublist (List.filter_sublist.map _)⟩

theorem Yields.counterparts {source text : List Char} {next' : Reader} {σ : String → String} (yields : Yields source next)
    (yields' : Yields text next') (renames : Renaming σ)
    (same : (Lexeme.all text).filter (!·.isGap) = (Lexeme.all source).filter (!·.isGap))
    (twins : Twins σ next.tokens.toList next'.tokens.toList) :
    List.Forall₂ (Counterpart σ) (visible next.tokens.toList) (visible next'.tokens.toList) := by
  have lexemes' := readFrom_visible yields'.readFrom
  rw [same] at lexemes'
  have paired := agree_through (readFrom_visible yields.readFrom) lexemes'
  rw [Twins, ← unspaced_visible, ← unspaced_visible] at twins
  have together := agree_beside paired (by
    rintro t t' ⟨lexeme, here, there⟩
    rw [here.isSpacing, there.isSpacing]) twins
  obtain ⟨balanced, serials⟩ := yields.balanced
  obtain ⟨balanced', serials'⟩ := yields'.balanced
  obtain ⟨lengths, known⟩ := List.forall₂_iff_zip.mp together
  refine List.forall₂_iff_zip.mpr ⟨lengths, ?_⟩
  intro t t' pair
  obtain ⟨⟨lexeme, here, there⟩, twin⟩ := known pair
  obtain ⟨member, member'⟩ := List.of_mem_zip pair
  obtain ⟨inside, seen⟩ := List.mem_filter.mp member
  obtain ⟨inside', seen'⟩ := List.mem_filter.mp member'
  have kind : t'.kind = t.kind.mapBrace σ := by
    cases spacing : t.kind.isSpacing with
    | true =>
      have spacing' : t'.kind.isSpacing = true := by rw [there.isSpacing, ← here.isSpacing, spacing]
      rw [TokenKind.eq_comment spacing (by simpa using seen), TokenKind.eq_comment spacing' (by simpa using seen')]
      rfl
    | false =>
      rw [(twin (by simp [spacing])).kind]
      exact TokenKind.mapLabel_eq_mapBrace renames.plain (yields.orderly.regular t inside)
  refine ⟨by rw [here.text, there.text], kind, ?_, ?_⟩
  · rw [balanced.partner_isSome serials member, balanced'.partner_isSome serials' member', kind,
      TokenKind.bracket?_mapBrace]
  · intro label closes
    have closes' : t'.kind = .subroutineClose (σ label) := by rw [kind, closes]; rfl
    exact ⟨yields.labels t inside label closes, yields'.labels t' inside' (σ label) closes'⟩

theorem brackets_of_counterparts {σ : String → String} {tokens tokens' : List Token}
    (counterparts : List.Forall₂ (Counterpart σ) tokens tokens') :
    tokens'.map (·.kind.bracket?) = tokens.map (·.kind.bracket?) := by
  induction counterparts with
  | nil => rfl
  | cons here _ ih => rw [List.map_cons, List.map_cons, ih, here.kind, TokenKind.bracket?_mapBrace]

-- Whatever blanks are put in, the text is read, and token by token it is the same text. A label of the same file in the
-- table could stand in the way of a brace at its new place, so there must be none.
theorem run_respaced (file : String) (source : List Char) (checkComments : Bool) (scope : Scope) (symbols : SymbolTable)
    (journal : Journal) (nextId : Nat) (foreign : Foreign file scope symbols) :
    let start (source : List Char) : Reader := { file, source, checkComments, scope, symbols, journal, nextId }
    ∀ next text, (start source).run = .ok next →
      Spaced ((visible next.tokens.toList).map (·.text.toList)) text →
      ∃ next' σ, (start text).run = .ok next' ∧ Function.Injective σ ∧
        List.Forall₂ (Counterpart σ) (visible next.tokens.toList) (visible next'.tokens.toList) ∧
        ∀ i j, Mates (visible next.tokens.toList) i j ↔ Mates (visible next'.tokens.toList) i j := by
  intro start next text ran spaced
  have begins (source : List Char) : Begins (start source) := ⟨rfl, rfl, foreign⟩
  have yields := (begins source).yields ran
  have same := yields.spelled spaced
  obtain ⟨next', σ, ran', renames, twins⟩ := (begins source).again ran same
  have yields' := (begins text).yields ran'
  have counterparts := yields.counterparts yields' renames same twins
  have brackets := brackets_of_counterparts counterparts
  obtain ⟨balanced, serials⟩ := yields.balanced
  obtain ⟨balanced', serials'⟩ := yields'.balanced
  refine ⟨next', σ, ran', renames.injective, counterparts, fun i j => ⟨?_, ?_⟩⟩
  · exact mates_transfer balanced serials balanced' brackets
  · exact mates_transfer balanced' serials' balanced brackets.symm

-- A comment and brackets without any blank between them; the copy of a label from another text is known from before.
theorem run_respaced_apart :
    let symbols : SymbolTable := ⟨[⟨"<lambda g:1:3>#0", ⟨"g", 1, 3⟩, none, true⟩]⟩
    let start (source : List Char) : Reader :=
      { file := "f", source, checkComments := true, scope := {}, symbols, journal := [], nextId := 4 }
    let text := ['\n', '(', 'c', ')', '\t', '[', ' ', '\x7b', '\r', '\n', '\x7d', ' ', ' ', ']', '\n']
    ∃ next next' σ, (start "(c)[\x7b\x7d]".toList).run = .ok next ∧ (start text).run = .ok next' ∧
      Function.Injective σ ∧ List.Forall₂ (Counterpart σ) (visible next.tokens.toList) (visible next'.tokens.toList) ∧
      ∀ i j, Mates (visible next.tokens.toList) i j ↔ Mates (visible next'.tokens.toList) i j := by
  intro symbols start text
  have foreign : Foreign "f" {} symbols := by
    refine ⟨by simp [InScope], by simp [symbols, SymbolTable.Distinct, SymbolTable.names], ?_, ?_⟩
    · intro s member named
      cases List.mem_singleton.mp member
      cases named
    · intro s member line column starts
      cases List.mem_singleton.mp member
      simp [Token.anonymousLabel, Location.text, toString] at starts
  have texts : (start "(c)[\x7b\x7d]".toList).run.toOption.map (fun next => (visible next.tokens.toList).map (·.text.toList)) =
      some [['(', 'c', ')'], ['['], ['\x7b'], ['\x7d'], [']']] := by decide +kernel
  obtain ⟨next, found, words⟩ := Option.map_eq_some_iff.mp texts
  have ran := eq_ok_of_toOption found
  have spaced : Spaced ((visible next.tokens.toList).map (·.text.toList)) text := by
    rw [words]
    have last : Spaced [] ['\n'] := .last (by simp) (by simp [isBlank])
    have square := @Spaced.word [' ', ' '] [']'] _ _ (by simp) (by simp [isBlank]) last
    have curly := @Spaced.word ['\r', '\n'] ['\x7d'] _ _ (by simp) (by simp [isBlank]) square
    have inner := @Spaced.word [' '] ['\x7b'] _ _ (by simp) (by simp [isBlank]) curly
    have outer := @Spaced.word ['\t'] ['['] _ _ (by simp) (by simp [isBlank]) inner
    exact @Spaced.word ['\n'] ['(', 'c', ')'] _ _ (by simp) (by simp [isBlank]) outer
  obtain ⟨next', σ, ran', rest⟩ := run_respaced "f" "(c)[\x7b\x7d]".toList true {} symbols [] 4 foreign next text ran spaced
  exact ⟨next, next', σ, ran, ran', rest⟩

end Reader

end RuneAsm
