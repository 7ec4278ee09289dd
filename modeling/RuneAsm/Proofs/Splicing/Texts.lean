import Mathlib
import RuneAsm.Proofs.Respacing.Words
import RuneAsm.Proofs.Scanning

namespace RuneAsm

open Run

-- Texts put together. What a text says is what its lexemes other than spacing say, each in the scope in which it
-- stands. Two texts with a newline between them say what the first says and then what the second says in the scope that
-- the first one leaves; the line ends of a file do not matter.

namespace Lexeme

variable {c : Char} {text rest xs ys : List Char} {n : Nat}

def solids (text : List Char) : List Lexeme := (all text).filter (!·.isSpacing)

theorem solids_nil : solids [] = [] := by simp [solids, all]

theorem solids_blank (rest : List Char) (blank : isBlank c = true) :
    solids (c :: rest) = solids (rest.dropWhile isBlank) := by
  rw [solids, all]
  simp [next, blank, isSpacing, solids]

theorem solids_comment (closed : commentLength 1 rest = some n) : solids ('(' :: rest) = solids (rest.drop n) := by
  have noBlank : isBlank '(' = false := by decide
  rw [solids, all]
  simp [next, noBlank, closed, isSpacing, solids]

theorem solids_bracket (rest : List Char) (bracket : isBracket c = true) : solids (c :: rest) = .bracket c :: solids rest := by
  have cases : c = '[' ∨ c = ']' ∨ c = '\x7b' ∨ c = '\x7d' := by simpa [isBracket, or_assoc] using bracket
  have apart : isBlank c = false ∧ c ≠ '(' := by
    rcases cases with rfl | rfl | rfl | rfl <;> decide
  rw [solids, all]
  simp [next, apart.1, apart.2, bracket, isSpacing, solids]

theorem solids_word (rest : List Char) (solid : isBlank c = false) (noComment : c ≠ '(') (noBracket : isBracket c = false) :
    solids (c :: rest) = .word c (rest.takeWhile (!isBlank ·)) :: solids (rest.dropWhile (!isBlank ·)) := by
  rw [solids, all]
  simp [next, solid, noComment, noBracket, isSpacing, solids]

-- Blanks in front of a text are passed over.
theorem solids_dropWhile (text : List Char) : solids (text.dropWhile isBlank) = solids text := by
  cases text with
  | nil => rfl
  | cons c rest =>
    cases blank : isBlank c with
    | true => rw [List.dropWhile_cons_of_pos blank, solids_blank rest blank]
    | false => rw [List.dropWhile_cons_of_neg (by simp [blank])]

-- A text whose comments are all closed, from its first lexeme on.
inductive Closed : List Char → Prop where
  | done : Closed []
  | blank {c : Char} {rest : List Char} (blank : isBlank c = true) (later : Closed (rest.dropWhile isBlank)) :
      Closed (c :: rest)
  | comment {rest : List Char} {n : Nat} (closed : commentLength 1 rest = some n) (later : Closed (rest.drop n)) :
      Closed ('(' :: rest)
  | bracket {c : Char} {rest : List Char} (bracket : isBracket c = true) (later : Closed rest) : Closed (c :: rest)
  | word {c : Char} {rest : List Char} (solid : isBlank c = false) (noComment : c ≠ '(')
      (noBracket : isBracket c = false) (later : Closed (rest.dropWhile (!isBlank ·))) : Closed (c :: rest)

theorem closed_of_finished (finished : ∀ lexeme ∈ all text, lexeme.Finished) : Closed text := by
  induction text using all.induct with
  | case1 => exact .done
  | case2 c rest ih =>
    rw [all] at finished
    have first := finished _ List.mem_cons_self
    have later := ih fun lexeme member => finished lexeme (List.mem_cons_of_mem _ member)
    unfold next at later first
    split at later
    · rename_i blank
      exact .blank blank later
    · rename_i solid
      rw [if_neg solid] at first
      split at later
      · rename_i paren
        subst paren
        rw [if_pos rfl] at first
        cases closed : commentLength 1 rest with
        | some n =>
          rw [closed] at later
          exact .comment closed later
        | none =>
          rw [closed] at first
          cases first
      · rename_i noComment
        split at later
        · rename_i bracket
          exact .bracket bracket later
        · rename_i noBracket
          exact .word (by simpa using solid) noComment (by simpa using noBracket) later

theorem dropWhile_append_dropWhile (p : Char → Bool) (xs ys : List Char) :
    (xs.dropWhile p ++ ys).dropWhile p = (xs ++ ys).dropWhile p := by
  induction xs with
  | nil => rfl
  | cons x xs ih =>
    cases holds : p x with
    | true => simpa [holds] using ih
    | false => simp [holds]

theorem while_append {A : Type} (p : A → Bool) {c : A} (stop : p c = false) (xs ys : List A) :
    (xs ++ c :: ys).takeWhile p = xs.takeWhile p ∧ (xs ++ c :: ys).dropWhile p = xs.dropWhile p ++ c :: ys := by
  induction xs with
  | nil => simp [stop]
  | cons x xs ih =>
    cases holds : p x with
    | true => simpa [holds] using ih
    | false => simp [holds]

theorem commentLength_append {depth : Nat} (closed : commentLength depth xs = some n) (ys : List Char) :
    commentLength depth (xs ++ ys) = some n ∧ n ≤ xs.length := by
  induction xs generalizing depth n with
  | nil =>
    cases depth with
    | zero =>
      cases closed
      simp [commentLength]
    | succ depth => cases closed
  | cons c xs ih =>
    cases depth with
    | zero =>
      cases closed
      simp [commentLength]
    | succ depth =>
      obtain ⟨m, inner, rfl⟩ := Option.map_eq_some_iff.mp closed
      obtain ⟨same, within⟩ := ih inner
      refine ⟨?_, Nat.succ_le_succ within⟩
      rw [List.cons_append, commentLength]
      simp only [same]
      rfl

theorem solids_append (closed : Closed text) (more : List Char) :
    solids (text ++ '\n' :: more) = solids text ++ solids more := by
  have newline : isBlank '\n' = true := by decide
  induction closed with
  | done => rw [List.nil_append, solids_blank more newline, solids_dropWhile, solids_nil, List.nil_append]
  | blank blank _ ih =>
    rw [List.cons_append, solids_blank _ blank, solids_blank _ blank, ← ih, ← dropWhile_append_dropWhile,
      solids_dropWhile]
  | comment closed _ ih =>
    obtain ⟨same, within⟩ := commentLength_append closed ('\n' :: more)
    rw [List.cons_append, solids_comment same, solids_comment closed, List.drop_append_of_le_length within, ih]
  | bracket bracket _ ih =>
    rw [List.cons_append, solids_bracket _ bracket, solids_bracket _ bracket, ih, List.cons_append]
  | @word c rest solid noComment noBracket _ ih =>
    obtain ⟨taken, dropped⟩ := while_append (!isBlank ·) (by rw [newline]; rfl) rest more
    rw [List.cons_append, solids_word _ solid noComment noBracket, solids_word _ solid noComment noBracket, taken,
      dropped, ih, List.cons_append]

-- One text is another with its line ends brought to newlines.
inductive Unified : List Char → List Char → Prop where
  | done : Unified [] []
  | same (c : Char) {xs ys : List Char} (later : Unified xs ys) : Unified (c :: xs) (c :: ys)
  | single {xs ys : List Char} (later : Unified xs ys) : Unified ('\r' :: xs) ('\n' :: ys)
  | double {xs ys : List Char} (later : Unified xs ys) : Unified ('\r' :: '\n' :: xs) ('\n' :: ys)

-- What is still to be written, after a carriage return or not.
def unify : Bool → List Char → List Char
  | _, [] => []
  | afterReturn, c :: rest =>
    if c = '\r' then '\n' :: unify true rest
    else if c = '\n' && afterReturn then unify false rest
    else c :: unify false rest

theorem unifyNewlines_eq (text : List Char) : Text.unifyNewlines text = unify false text := by
  have run (text : List Char) (flag : Bool) (out : Array Char) :
      (text.foldl Text.unifyStep (flag, out)).2.toList = out.toList ++ unify flag text := by
    induction text generalizing flag out with
    | nil => simp [unify]
    | cons c rest ih =>
      rw [List.foldl_cons, Text.unifyStep, unify]
      split
      · rw [ih, Array.toList_push, List.append_assoc]
        rfl
      · split
        · exact ih false out
        · rw [ih, Array.toList_push, List.append_assoc]
          rfl
  simpa [Text.unifyNewlines] using run text false #[]

theorem unified_unify (text : List Char) :
    Unified text (unify false text) ∧ Unified ('\r' :: text) ('\n' :: unify true text) := by
  induction text with
  | nil => exact ⟨.done, .single .done⟩
  | cons c rest ih =>
    by_cases carriage : c = '\r'
    · subst carriage
      exact ⟨ih.2, .single ih.2⟩
    · have plain : unify false (c :: rest) = c :: unify false rest := by simp [unify, carriage]
      refine ⟨plain ▸ .same c ih.1, ?_⟩
      by_cases newline : c = '\n'
      · subst newline
        exact .double ih.1
      · have kept : unify true (c :: rest) = c :: unify false rest := by simp [unify, carriage, newline]
        exact kept ▸ .single (.same c ih.1)

theorem Unified.dropBlanks (unified : Unified xs ys) : Unified (xs.dropWhile isBlank) (ys.dropWhile isBlank) := by
  have blank : isBlank '\r' = true ∧ isBlank '\n' = true := by decide
  induction unified with
  | done => exact .done
  | same c later ih =>
    cases holds : isBlank c with
    | true => simpa [holds] using ih
    | false => simpa [holds] using Unified.same c later
  | single later ih => simpa [blank] using ih
  | double later ih => simpa [blank] using ih

-- No word holds a line end.
theorem Unified.word (unified : Unified xs ys) : ys.takeWhile (!isBlank ·) = xs.takeWhile (!isBlank ·) ∧
    Unified (xs.dropWhile (!isBlank ·)) (ys.dropWhile (!isBlank ·)) := by
  have blank : isBlank '\r' = true ∧ isBlank '\n' = true := by decide
  induction unified with
  | done => exact ⟨rfl, .done⟩
  | same c later ih =>
    cases holds : isBlank c with
    | true => simpa [holds] using Unified.same c later
    | false => simpa [holds] using ih
  | single later ih => simpa [blank] using Unified.single later
  | double later ih => simpa [blank] using Unified.double later

theorem Unified.comment {depth : Nat} (unified : Unified xs ys) (closed : commentLength depth xs = some n) :
    ∃ m, commentLength depth ys = some m ∧ Unified (xs.drop n) (ys.drop m) := by
  induction unified generalizing depth n with
  | done => exact ⟨n, closed, by simpa using Unified.done⟩
  | @same c xs ys later ih =>
    cases depth with
    | zero =>
      cases closed
      exact ⟨0, rfl, .same c later⟩
    | succ depth =>
      obtain ⟨k, inner, rfl⟩ := Option.map_eq_some_iff.mp closed
      obtain ⟨m, found, rest⟩ := ih inner
      exact ⟨m + 1, by rw [commentLength]; simp only [found]; rfl, rest⟩
  | @single xs ys later ih =>
    cases depth with
    | zero =>
      cases closed
      exact ⟨0, rfl, .single later⟩
    | succ depth =>
      obtain ⟨k, inner, rfl⟩ := Option.map_eq_some_iff.mp closed
      obtain ⟨m, found, rest⟩ := ih inner
      exact ⟨m + 1, by simpa [commentLength] using found, rest⟩
  | @double xs ys later ih =>
    cases depth with
    | zero =>
      cases closed
      exact ⟨0, rfl, .double later⟩
    | succ depth =>
      obtain ⟨k, inner, rfl⟩ := Option.map_eq_some_iff.mp closed
      obtain ⟨l, innermost, rfl⟩ := Option.map_eq_some_iff.mp inner
      obtain ⟨m, found, rest⟩ := ih innermost
      exact ⟨m + 1, by simpa [commentLength] using found, rest⟩

theorem solids_unified (closed : Closed xs) (unified : Unified xs ys) : solids ys = solids xs := by
  induction closed generalizing ys with
  | done =>
    cases unified
    rfl
  | @blank c rest blank _ ih =>
    have dropped := unified.dropBlanks
    rw [List.dropWhile_cons_of_pos blank] at dropped
    rw [solids_blank rest blank, ← ih dropped, solids_dropWhile]
  | comment closed _ ih =>
    cases unified with
    | same _ later =>
      obtain ⟨m, found, dropped⟩ := later.comment closed
      rw [solids_comment found, solids_comment closed, ih dropped]
  | bracket bracket _ ih =>
    cases unified with
    | same _ later => rw [solids_bracket _ bracket, solids_bracket _ bracket, ih later]
    | single later => exact absurd bracket (by decide)
    | double later => exact absurd bracket (by decide)
  | word solid noComment noBracket _ ih =>
    cases unified with
    | same _ later =>
      obtain ⟨taken, dropped⟩ := later.word
      rw [solids_word _ solid noComment noBracket, solids_word _ solid noComment noBracket, taken, ih dropped]
    | single later => exact absurd solid (by decide)
    | double later => exact absurd solid (by decide)

theorem solids_unifyNewlines (closed : Closed text) : solids (Text.unifyNewlines text) = solids text := by
  rw [unifyNewlines_eq]
  exact solids_unified closed (unified_unify text).1

-- What each lexeme says in the scope that those before it leave.
def sayings : Option String → List Lexeme → List (Option TokenKind)
  | _, [] => []
  | parent, lexeme :: rest => lexeme.kind? parent :: sayings (lexeme.scopeAfter parent) rest

theorem sayings_append (parent : Option String) (early late : List Lexeme) :
    sayings parent (early ++ late) = sayings parent early ++ sayings (early.foldl scopeAfter parent) late := by
  induction early generalizing parent with
  | nil => rfl
  | cons lexeme early ih =>
    rw [List.cons_append, sayings, sayings, ih]
    rfl

theorem word_kind {parent : Option String} {first : Char} {rest : List Char} {kind : TokenKind}
    (said : (word first rest).kind? parent = some kind) :
    kind.isTransparent = false ∧
      ((∃ label implied, kind = .parentLabel label implied) → Rune.ofChar? first = some .parentLabel) := by
  obtain ⟨m, meant, rfl⟩ := meaning_of_kind? said
  rcases wordMeaning_ok meant with ⟨rune, found, meant⟩ | ⟨_, meant⟩
  · cases rune <;> simp only [runeMeaning] at meant
    case parentLabel =>
      obtain ⟨_, _, kind, _⟩ := parentMeaning_ok meant
      exact ⟨by rw [kind]; rfl, fun _ => found⟩
    case childLabel =>
      obtain ⟨_, _, rfl⟩ := childMeaning_ok meant
      exact ⟨rfl, by simp [TokenKind.bare]⟩
    case reference =>
      obtain ⟨target, rfl⟩ := referenceMeaning_ok meant
      cases target <;> exact ⟨rfl, by simp [TokenKind.bare, ReferenceForm.to]⟩
    case inclusion | macroDefinition =>
      rw [namedMeaning_ok meant]
      exact ⟨rfl, by simp [TokenKind.bare]⟩
    case rawText =>
      cases meant
      exact ⟨rfl, by simp [TokenKind.bare]⟩
    all_goals
      obtain ⟨_, _, rfl⟩ := numberMeaning_ok meant
      exact ⟨rfl, by simp [TokenKind.bare]⟩
  · rcases plainMeaning_ok meant with ⟨_, rfl⟩ | ⟨_, _, rfl⟩ | meant
    · exact ⟨rfl, by simp [TokenKind.bare]⟩
    · exact ⟨rfl, by simp [TokenKind.bare]⟩
    · obtain ⟨target, rfl⟩ := referenceMeaning_ok meant
      cases target <;> exact ⟨rfl, by simp [TokenKind.bare, ReferenceForm.to]⟩

-- Lexemes that begin with a label that opens a scope say the same in every scope.
theorem sayings_of_label {parent : Option String} {lexemes : List Lexeme} {front : List TokenKind} {label : String}
    {implied : Option String} {back : List (Option TokenKind)} (transparent : ∀ kind ∈ front, kind.isTransparent = true)
    (said : sayings parent lexemes = front.map some ++ some (.parentLabel label implied) :: back)
    (other : Option String) : sayings other lexemes = sayings parent lexemes := by
  induction lexemes generalizing front with
  | nil => simp [sayings] at said
  | cons lexeme lexemes ih =>
    cases front with
    | nil =>
      have here : lexeme.kind? parent = some (.parentLabel label implied) := (List.cons.inj said).1
      cases lexeme with
      | blank text => cases here
      | comment text closed => cases closed <;> cases here
      | bracket c =>
        obtain ⟨m, meant, bare⟩ := meaning_of_kind? here
        cases meant
        unfold bracketMeaning at bare
        split_ifs at bare <;> cases bare
      | word first rest =>
        have rune := (word_kind here).2 ⟨label, implied, rfl⟩
        simp [sayings, kind?, scopeAfter, meaning, wordMeaning, runeMeaning, rune]
    | cons kind front =>
      obtain ⟨here, later⟩ := List.cons.inj said
      have blank := transparent kind List.mem_cons_self
      have more := ih (fun k member => transparent k (List.mem_cons_of_mem _ member))
      cases lexeme with
      | blank | comment | bracket =>
        rw [sayings, sayings]
        exact congrArg _ (more later)
      | word first rest =>
        rw [(word_kind here).1] at blank
        cases blank

end Lexeme

namespace TokenKind

variable (kind : TokenKind)

-- What looks neither at the parent that a label implies nor at the labels of inline subroutines is kept.
theorem bare_congr {A : Type} (f : TokenKind → A)
    (parents : ∀ label implied implied', f (.parentLabel label implied) = f (.parentLabel label implied'))
    (closers : ∀ label label', f (.subroutineClose label) = f (.subroutineClose label'))
    (inner : ∀ form mode instruction label label', f (.reference ⟨form, mode, instruction, .inline label⟩) =
      f (.reference ⟨form, mode, instruction, .inline label'⟩)) : f kind.bare = f kind := by
  cases kind with
  | parentLabel label implied => exact parents label _ implied
  | subroutineClose label => exact closers "" label
  | reference r =>
    obtain ⟨form, mode, instruction, target⟩ := r
    cases target with
    | named label => rfl
    | «inline» label => exact inner form mode instruction none label
  | _ => rfl

theorem bare_isSpacing : kind.bare.isSpacing = kind.isSpacing :=
  kind.bare_congr isSpacing (fun _ _ _ => rfl) (fun _ _ => rfl) (fun _ _ _ _ _ => rfl)

theorem bare_isTransparent : kind.bare.isTransparent = kind.isTransparent :=
  kind.bare_congr isTransparent (fun _ _ _ => rfl) (fun _ _ => rfl) (fun _ _ _ _ _ => rfl)

theorem bare_closes? : kind.bare.closes? = kind.closes? :=
  kind.bare_congr closes? (fun _ _ _ => rfl) (fun _ _ => rfl) (fun _ _ _ _ _ => rfl)

theorem bare_closer? : kind.bare.closer? = kind.closer? :=
  kind.bare_congr closer? (fun _ _ _ => rfl) (fun _ _ => rfl) (fun _ _ _ _ _ => rfl)

theorem bare_opensBody : Expander.opensBody kind.bare = Expander.opensBody kind :=
  kind.bare_congr Expander.opensBody (fun _ _ _ => rfl) (fun _ _ => rfl) (fun _ _ _ _ _ => rfl)

theorem bare_inclusion {name : String} : kind.bare = .inclusion name ↔ kind = .inclusion name :=
  iff_of_eq (kind.bare_congr (· = .inclusion name) (by simp) (by simp) (by simp))

theorem bare_macroDefinition {name : String} {captured : Bool} :
    kind.bare = .macroDefinition name captured ↔ kind = .macroDefinition name captured :=
  iff_of_eq (kind.bare_congr (· = .macroDefinition name captured) (by simp) (by simp) (by simp))

end TokenKind

-- What counts of tokens before anything is expanded.
def gist (tokens : List Token) : List TokenKind := (unspaced tokens).map (·.kind.bare)

@[simp] theorem gist_append (early late : List Token) : gist (early ++ late) = gist early ++ gist late := by
  simp [gist]

theorem gist_spacing {t : Token} (spacing : t.kind.isSpacing = true) : gist [t] = [] := by
  simp [gist, unspaced, spacing]

theorem gist_solid {t : Token} (solid : t.kind.isSpacing = false) : gist [t] = [t.kind.bare] := by
  simp [gist, unspaced, solid]

namespace Expander

variable {e next : Expander} {settings : Settings} {source : List Char} {file : String}

theorem isSpacing_of_said {lexeme : Lexeme} {parent : Option String} {kind : TokenKind}
    (said : lexeme.kind? parent = some kind.bare) : kind.isSpacing = lexeme.isSpacing := by
  rw [← kind.bare_isSpacing]
  obtain ⟨m, meant, bare⟩ := Lexeme.meaning_of_kind? said
  cases lexeme with
  | blank text =>
    cases meant
    rw [← bare]
    rfl
  | comment text closed =>
    cases closed <;> cases meant
    rw [← bare]
    rfl
  | bracket c =>
    cases meant
    rw [← bare, TokenKind.bare_isSpacing]
    unfold Lexeme.bracketMeaning
    split_ifs <;> rfl
  | word first rest =>
    have solid := (Lexeme.word_kind said).1
    cases shape : kind.bare <;> rw [shape] at solid <;> first | rfl | cases solid

theorem scopeAfter_spacing {lexeme : Lexeme} (spacing : lexeme.isSpacing = true) (parent : Option String) :
    lexeme.scopeAfter parent = parent := by
  cases lexeme <;> first | rfl | cases spacing

theorem gist_of_stamps {place : Nat × Nat} {parent : Option String} {tokens : List Token} {lexemes : List Lexeme}
    (same : tokens.map Token.mark = Reader.stamps file place parent lexemes) :
    (gist tokens).map some = Lexeme.sayings parent (lexemes.filter (!·.isSpacing)) ∧
      ∀ t ∈ tokens, t.location.file = file := by
  induction lexemes generalizing tokens place parent with
  | nil =>
    rw [List.map_eq_nil_iff.mp same]
    exact ⟨rfl, by simp⟩
  | cons lexeme lexemes ih =>
    obtain ⟨t, rest, rfl, first, later⟩ := List.map_eq_cons_iff.mp same
    obtain ⟨sayings, files⟩ := ih later
    have said : lexeme.kind? parent = some t.kind.bare := (congrArg Mark.kind first).symm
    have spacing := isSpacing_of_said said
    refine ⟨?_, ?_⟩
    · rw [← List.singleton_append, gist_append, List.map_append, sayings]
      cases isSpacing : lexeme.isSpacing with
      | true =>
        rw [gist_spacing (spacing.trans isSpacing), scopeAfter_spacing isSpacing]
        simp [isSpacing]
      | false =>
        rw [gist_solid (spacing.trans isSpacing)]
        simp [isSpacing, Lexeme.sayings, said]
    · intro u member
      rcases List.mem_cons.mp member with rfl | inRest
      · exact congrArg (·.location.file) first
      · exact files u inRest

theorem read_gist (read : e.read settings source file = .ok next) :
    (gist next.program).map some = Lexeme.sayings none (Lexeme.solids source) ∧
      ∀ t ∈ next.program, t.location.file = file := by
  have scans := Reader.run_scans (e.reader settings source file)
  rw [read_eq] at read
  cases ran : (e.reader settings source file).run with
  | ok r =>
    rw [ran] at read
    cases read
    exact gist_of_stamps (scans.ok ran).marks
  | error stop =>
    rw [ran] at read
    cases read

theorem read_closed {journal : Journal} (read : ({ journal } : Expander).read settings source file = .ok e) :
    Lexeme.Closed source := Lexeme.closed_of_finished (read_words read).2

-- The first token that is not transparent is a label that opens a scope.
def OpensWithLabel (tokens : List Token) : Prop :=
  ∃ t label implied, tokens.find? (!·.isTransparent) = some t ∧ t.kind = .parentLabel label implied

theorem gist_of_opens {tokens : List Token} (opens : OpensWithLabel tokens) :
    ∃ front label implied back, gist tokens = front ++ .parentLabel label implied :: back ∧
      ∀ kind ∈ front, kind.isTransparent = true := by
  obtain ⟨t, label, implied, found, kind⟩ := opens
  obtain ⟨_, early, late, rfl, transparent⟩ := List.find?_eq_some_iff_append.mp found
  obtain ⟨shown, bare⟩ : ∃ shown, t.kind.bare = .parentLabel label shown := ⟨_, by rw [kind]; rfl⟩
  refine ⟨gist early, label, shown, gist late, ?_, ?_⟩
  · rw [← List.singleton_append, gist_append, gist_append, gist_solid (by rw [kind]; rfl), bare, List.singleton_append]
  · intro kind member
    obtain ⟨u, there, rfl⟩ := List.mem_map.mp member
    have blank := transparent u (List.mem_of_mem_filter there)
    rw [TokenKind.bare_isTransparent]
    simpa [Token.isTransparent] using blank

theorem sayings_of_read (read : e.read settings source file = .ok next) (opens : OpensWithLabel next.program)
    (parent : Option String) : Lexeme.sayings parent (Lexeme.solids source) = (gist next.program).map some := by
  obtain ⟨said, _⟩ := read_gist read
  obtain ⟨front, label, implied, back, split, transparent⟩ := gist_of_opens opens
  rw [said]
  rw [split, List.map_append] at said
  exact Lexeme.sayings_of_label transparent said.symm parent

-- The text with a line that includes a file between two parts, and the text with something else in its place.
def including (early name late : List Char) : List Char := early ++ '\n' :: '~' :: (name ++ '\n' :: late)

def inserting (early inner late : List Char) : List Char := early ++ '\n' :: (inner ++ '\n' :: late)

variable {first second third whole : Expander} {early inner late name : List Char} {file' : String}

theorem gist_included (word : name ≠ [] ∧ ∀ c ∈ name, isBlank c = false)
    (readEarly : ({} : Expander).read settings early file = .ok first)
    (readLate : ({} : Expander).read settings late file = .ok third) (opens : OpensWithLabel third.program)
    (read : e.read settings (including early name late) file' = .ok whole) :
    gist whole.program = gist first.program ++ .inclusion (String.ofList name) :: gist third.program := by
  have stop : (!isBlank '\n') = false := by decide
  have solid : ∀ c ∈ name, (!isBlank c) = true := by
    intro c member
    rw [word.2 c member]
    rfl
  obtain ⟨taken, dropped⟩ := Lexeme.while_append (!isBlank ·) stop name late
  rw [List.takeWhile_eq_self_iff.mpr solid] at taken
  rw [List.dropWhile_eq_nil_iff.mpr solid, List.nil_append] at dropped
  have lexemes : Lexeme.solids ('~' :: (name ++ '\n' :: late)) = .word '~' name :: Lexeme.solids late := by
    rw [Lexeme.solids_word _ (by decide) (by decide) (by decide), taken, dropped,
      Lexeme.solids_blank late (by decide), Lexeme.solids_dropWhile]
  apply List.map_injective_iff.mpr (Option.some_injective _)
  rw [(read_gist read).1, including, Lexeme.solids_append (read_closed readEarly), lexemes, Lexeme.sayings_append,
    ← (read_gist readEarly).1, Lexeme.sayings, sayings_of_read readLate opens, List.map_append, List.map_cons]
  have said (parent : Option String) : (Lexeme.word '~' name).kind? parent = some (.inclusion (String.ofList name)) := by
    have meant : (Lexeme.word '~' name).meaning ⟨"", 1, 1⟩ parent (fun _ => false) =
        .ok { kind := .inclusion (String.ofList name) } := if_neg (by simpa using word.1)
    exact Lexeme.kind?_of_meaning meant
  rw [said]

theorem gist_spliced (readEarly : ({} : Expander).read settings early file = .ok first)
    (readInner : ({} : Expander).read settings inner file = .ok second) (opensInner : OpensWithLabel second.program)
    (readLate : ({} : Expander).read settings late file = .ok third) (opensLate : OpensWithLabel third.program)
    (read : e.read settings (inserting early inner late) file' = .ok whole) :
    gist whole.program = gist first.program ++ (gist second.program ++ gist third.program) := by
  apply List.map_injective_iff.mpr (Option.some_injective _)
  rw [(read_gist read).1, inserting, Lexeme.solids_append (read_closed readEarly),
    Lexeme.solids_append (read_closed readInner), Lexeme.sayings_append, Lexeme.sayings_append, ← (read_gist readEarly).1, sayings_of_read readInner opensInner,
    sayings_of_read readLate opensLate, List.map_append, List.map_append]

end Expander

end RuneAsm
