import Mathlib
import RuneAsm.Proofs.BracketWords
import RuneAsm.Proofs.Scanning

namespace RuneAsm

open Run

-- The brackets of a text. Brackets stand alone or at the end of a rune, and count neither in comments nor in words.
-- Reading keeps every level of them balanced and knows which ones wait for a partner, so it pairs them as they match
-- and stops exactly where no text could close them any more.

variable {front back : List Token} {t : Token}

-- A brace also counts when it is all that follows the rune of a reference.
def Lexeme.bracket? : Lexeme → Option Char
  | .bracket c => some c
  | .word first rest =>
    match Rune.ofChar? first with
    | some (.reference _) => if rest = ['\x7b'] then some '\x7b' else none
    | _ => none
  | _ => none

def bracketsIn (lexemes : List Lexeme) : List Char := lexemes.filterMap Lexeme.bracket?

theorem bracketsIn_snoc (lexemes : List Lexeme) (lexeme : Lexeme) :
    bracketsIn (lexemes ++ [lexeme]) = bracketsIn lexemes ++ lexeme.bracket?.toList := by
  unfold bracketsIn
  cases bracket : lexeme.bracket? <;> simp [bracket]

namespace Lexeme

variable {parent : Option String} {known : String → Bool} {first : Char} {rest : List Char}

theorem bracket?_reference (form : ReferenceForm) (target : List Char) :
    (referenceMeaning parent form first target).toOption.bind (·.kind.bracket?) =
      if target = ['\x7b'] then some '\x7b' else none := by
  unfold referenceMeaning
  split
  · rfl
  · rfl
  · rename_i c rest noBrace
    have other : c :: rest ≠ ['\x7b'] := by simpa using noBrace
    rw [if_neg other]
    split
    · split <;> rfl
    · rfl

theorem bracket?_rune (rune : Rune) : (runeMeaning parent known first rest rune).toOption.bind (·.kind.bracket?) =
    match rune with
    | .reference _ => if rest = ['\x7b'] then some '\x7b' else none
    | _ => none := by
  cases rune with
  | reference form => exact bracket?_reference form rest
  | literalHex | padAbsolute | padRelative | retarget =>
    simp only [runeMeaning, numberMeaning]
    split <;> rfl
  | rawText => rfl
  | parentLabel =>
    simp only [runeMeaning, parentMeaning]
    split_ifs <;> rfl
  | childLabel =>
    simp only [runeMeaning, childMeaning]
    split
    · rfl
    · split <;> rfl
  | inclusion | macroDefinition =>
    simp only [runeMeaning, namedMeaning]
    split_ifs <;> rfl

-- The token of a lexeme is the bracket that the lexeme is.
theorem bracket?_meaning {lexeme : Lexeme} (parent : Option String) (known : String → Bool) (proper : lexeme.Proper)
    (location : Location) :
    (lexeme.meaning location parent known).toOption.bind (·.kind.bracket?) = lexeme.bracket? := by
  cases lexeme with
  | blank text => rfl
  | comment text closed => cases closed <;> rfl
  | bracket c =>
    have cases : c = '[' ∨ c = ']' ∨ c = '\x7b' ∨ c = '\x7d' := by simpa [Proper, isBracket, or_assoc] using proper
    rcases cases with rfl | rfl | rfl | rfl <;> rfl
  | word first rest =>
    have noBrace : first ≠ '\x7b' := by
      rintro rfl
      simp [Proper, isBracket] at proper
    simp only [meaning, wordMeaning, bracket?]
    split
    · rename_i stray
      subst stray
      rfl
    · cases Rune.ofChar? first with
      | none =>
        simp only [plainMeaning]
        split
        · rfl
        · split
          · rfl
          · rw [bracket?_reference]
            simp [noBrace]
      | some rune =>
        rw [bracket?_rune]
        cases rune <;> rfl

end Lexeme

namespace Reader

variable {r next m : Reader} {lexeme : Lexeme} {lexemes : List Lexeme} {text : List Char} {kind : TokenKind} {nextId : Nat}

-- Brackets read so far: those of the lexemes, each level closed in itself, and the open ones waiting for their partners.
structure Levelled (nextId : Nat) (lexemes : List Lexeme) (r : Reader) : Prop where
  word : bracketsOf r.tokens.toList = bracketsIn lexemes
  awaited : Bracket.scan [] (bracketsIn lexemes) = some (r.frames.filterMap (·.opener.kind.closer?))
  level : Balanced r.latest.toList
  frames : ∀ frame ∈ r.frames, Balanced frame.before.toList ∧ ∃ c, frame.opener.kind.closer? = some c
  serials : ∃ count, r.nextId = nextId + count ∧ r.tokens.toList.map (·.id) = List.range' nextId count

theorem Levelled.aside {scope : Scope} {symbols : SymbolTable} {journal : Journal} {line column : Nat}
    (levelled : Levelled nextId lexemes r) : Levelled nextId lexemes { r with scope, symbols, journal, line, column } :=
  ⟨levelled.word, levelled.awaited, levelled.level, levelled.frames, levelled.serials⟩

theorem Levelled.scan (levelled : Levelled nextId lexemes r) (lexeme : Lexeme) :
    Bracket.scan [] (bracketsIn (lexemes ++ [lexeme])) =
      Bracket.scan (r.frames.filterMap (·.opener.kind.closer?)) lexeme.bracket?.toList := by
  rw [bracketsIn_snoc, Bracket.scan_append, levelled.awaited]
  rfl

theorem Levelled.push (levelled : Levelled nextId lexemes r) (opensNone : kind.closer? = none)
    (closesNone : kind.closes? = none) (bracket : kind.bracket? = lexeme.bracket?) :
    Levelled nextId (lexemes ++ [lexeme])
      { r with latest := r.latest.push (r.token text kind), nextId := r.nextId + 1 } := by
  have none : lexeme.bracket? = none := bracket.symm.trans (TokenKind.bracket?_eq_none opensNone closesNone)
  have same : bracketsIn (lexemes ++ [lexeme]) = bracketsIn lexemes := by simp [bracketsIn_snoc, none]
  have written : (Reader.tokens { r with
      latest := r.latest.push (r.token text kind), nextId := r.nextId + 1 }).toList =
      r.tokens.toList ++ [r.token text kind] := by simp [tokens_toList]
  obtain ⟨count, number, ids⟩ := levelled.serials
  refine ⟨?_, same ▸ levelled.awaited, ?_, levelled.frames, count + 1, ?_, ?_⟩
  · rw [written, same, bracketsOf_append, levelled.word]
    simp [bracketsOf, token, bracket, none]
  · simpa using levelled.level.append (.single opensNone closesNone rfl)
  · rw [number, Nat.add_assoc]
  · rw [written]
    exact serials_push ids number

theorem Levelled.open {c : Char} (levelled : Levelled nextId lexemes r) (opens : kind.closer? = some c)
    (bracket : kind.bracket? = lexeme.bracket?) :
    Levelled nextId (lexemes ++ [lexeme])
      { r with frames := ⟨r.latest, r.token text kind⟩ :: r.frames, latest := #[], nextId := r.nextId + 1 } := by
  obtain ⟨o, isBracket, closes⟩ := TokenKind.bracket?_of_closer? opens
  have written : (Reader.tokens { r with
      frames := ⟨r.latest, r.token text kind⟩ :: r.frames, latest := #[], nextId := r.nextId + 1 }).toList =
      r.tokens.toList ++ [r.token text kind] := by simp [tokens_toList, outside_cons]
  obtain ⟨count, number, ids⟩ := levelled.serials
  refine ⟨?_, ?_, .nil, ?_, count + 1, ?_, ?_⟩
  · rw [written, bracketsIn_snoc, bracketsOf_append, levelled.word, bracketsOf_cons]
    simp [token, bracket, bracketsOf]
  · rw [levelled.scan, ← bracket, isBracket]
    simp [Bracket.scan, Bracket.pass, closes, token, opens]
  · intro frame member
    rcases List.mem_cons.mp member with rfl | outer
    · exact ⟨levelled.level, c, opens⟩
    · exact levelled.frames frame outer
  · rw [number, Nat.add_assoc]
  · rw [written]
    exact serials_push ids number

-- The opener gets its partner and its label when its partner is read.
theorem pairs_closedBy {opener : Token} (closer : Token) {c : Char} (opens : opener.kind.closer? = some c)
    (closes : closer.kind.closes? = some c) (back : closer.partner = some opener.id) :
    Pairs (opener.closedBy closer.id closer.kind.label?) closer ∧
      (opener.closedBy closer.id closer.kind.label?).kind.bracket? = opener.kind.bracket? := by
  cases kind : closer.kind <;> rw [kind] at closes <;> cases closes
  · obtain group := TokenKind.closer?_eq_square.mp opens
    have same : opener.closedBy closer.id none = { opener with partner := some closer.id } := by
      simp [Token.closedBy, group]
    simp only [TokenKind.label?, same]
    exact ⟨⟨⟨']', opens, by rw [kind]; rfl⟩, rfl, back, by simp [group, kind, TokenKind.label?]⟩, trivial⟩
  · rename_i label
    obtain ⟨r, inner, reference, target⟩ := TokenKind.closer?_eq_curly.mp opens
    simp only [TokenKind.label?, Token.closedBy, reference]
    exact ⟨⟨⟨'\x7d', rfl, by rw [kind]; rfl⟩, rfl, back, by rw [kind]; rfl⟩, by simp [TokenKind.bracket?, target]⟩

theorem Levelled.pair {c : Char} {frame : Frame} {outer : List Frame} (levelled : Levelled nextId lexemes r)
    (frames : r.frames = frame :: outer) (opens : frame.opener.kind.closer? = some c) (closes : kind.closes? = some c)
    (bracket : kind.bracket? = lexeme.bracket?) :
    Levelled nextId (lexemes ++ [lexeme]) (r.pair frame outer text kind) := by
  obtain ⟨before, _⟩ := levelled.frames frame (by simp [frames])
  obtain ⟨isBracket, closer⟩ := TokenKind.bracket?_of_closes? closes
  obtain ⟨pairs, sameBracket⟩ := pairs_closedBy { r.token text kind with partner := some frame.opener.id }
    opens closes rfl
  obtain ⟨count, number, ids⟩ := levelled.serials
  have word := levelled.word
  have read : r.tokens.toList = outside outer ++ (frame.before.toList ++ frame.opener :: r.latest.toList) := by
    simp [tokens_toList, frames, outside_cons]
  rw [read] at ids word
  refine ⟨?_, ?_, ?_, ?_, count + 1, ?_, ?_⟩
  · rw [pair_tokens, bracketsIn_snoc, ← word, ← bracket]
    simp only [bracketsOf_append, bracketsOf_cons]
    rw [show (frame.opener.closedBy r.nextId kind.label?).kind.bracket? = frame.opener.kind.bracket? from sameBracket]
    simp [bracketsOf, token]
  · rw [levelled.scan, ← bracket, isBracket, frames]
    simp [Bracket.scan, Bracket.pass, closer, opens, Reader.pair]
  · have whole := before.append (levelled.level.enclose pairs)
    simpa [Reader.pair, token, location] using whole
  · intro other member
    exact levelled.frames other (by rw [frames]; exact List.mem_cons_of_mem _ member)
  · simp [Reader.pair, number, Nat.add_assoc]
  · rw [pair_tokens]
    refine serials_push ?_ number
    rw [← ids]
    simp [closedBy_id]

end Reader

def Failure.IsUnmatched (f : Failure) : Prop :=
  ∃ found opened location line, f = .report ⟨.unmatchedBracket found opened, location, line⟩

namespace Reader

variable {r next m : Reader} {lexeme : Lexeme} {lexemes : List Lexeme} {text : List Char} {nextId : Nat} {stop : Stop Reader}

-- A closing bracket that nothing waits for is refused at once.
theorem take_stuck (levelled : Levelled nextId lexemes r) (proper : lexeme.Proper)
    (stuck : ¬ Continuable (bracketsIn (lexemes ++ [lexeme]))) :
    ∃ found opened, r.take lexeme = r.fail (.unmatchedBracket found opened) := by
  rw [Bracket.continuable_iff, levelled.scan] at stuck
  have meant := Lexeme.bracket?_meaning r.parent r.symbols.contains proper r.location
  rw [take_eq r proper]
  cases bracket : lexeme.bracket? with
  | none => simp [bracket, Bracket.scan] at stuck
  | some c =>
    have silent : r.remark lexeme = r := by
      cases lexeme <;> first | rfl | cases bracket
    rw [bracket] at stuck meant
    obtain ⟨meaning, found, kind⟩ := Option.bind_eq_some_iff.mp meant
    rw [eq_ok_of_toOption found, silent]
    cases opens : closerOf? c with
    | some closer => simp [Bracket.scan, Bracket.pass, opens] at stuck
    | none =>
      have closes : meaning.kind.closes? = some c := by simp [TokenKind.closes?_eq, kind, opens]
      have apart : r.frames.head?.bind (·.opener.kind.closer?) ≠ some c := by
        intro same
        cases frames : r.frames <;> simp_all [Bracket.scan, Bracket.pass]
      exact ⟨_, accept_unmatched closes apart⟩

theorem accept_levelled {meaning : Meaning} (levelled : Levelled nextId lexemes r)
    (bracket : meaning.kind.bracket? = lexeme.bracket?)
    (continuable : Continuable (bracketsIn (lexemes ++ [lexeme]))) :
    Ends (Levelled nextId (lexemes ++ [lexeme])) (fun f => ¬ f.IsUnmatched) (r.accept text meaning) := by
  rw [Bracket.continuable_iff, levelled.scan, ← bracket] at continuable
  have duplicate (f : Failure) (failed : ∃ name first location line,
      f = .report ⟨.duplicateLabel name first, location, line⟩) : ¬ f.IsUnmatched := by
    obtain ⟨_, _, _, _, rfl⟩ := failed
    rintro ⟨_, _, _, _, same⟩
    cases same
  have declared := (declares_frame r meaning.declares).mono (fun _ good => good) duplicate
  cases closes : meaning.kind.closes? with
  | none =>
    simp only [accept, closes]
    refine declared.andThen ?_
    rintro mid ⟨scope, symbols, journal, rfl⟩
    unfold attach
    cases opens : meaning.kind.closer? with
    | none => exact levelled.aside.push opens closes bracket
    | some c => exact levelled.aside.open opens bracket
  | some c =>
    obtain ⟨isBracket, closer⟩ := TokenKind.bracket?_of_closes? closes
    obtain ⟨frame, outer, frames, opens⟩ : ∃ frame outer, r.frames = frame :: outer ∧
        frame.opener.kind.closer? = some c := by
      rw [isBracket] at continuable
      cases frames : r.frames with
      | nil => simp [Bracket.scan, Bracket.pass, closer, frames] at continuable
      | cons frame outer =>
        obtain ⟨_, d, opens⟩ := levelled.frames frame (by simp [frames])
        refine ⟨frame, outer, rfl, ?_⟩
        by_contra other
        simp [Bracket.scan, Bracket.pass, closer, frames, opens, opens ▸ other] at continuable
    rw [accept_closing closes frames opens]
    refine declared.andThen ?_
    rintro mid ⟨scope, symbols, journal, rfl⟩
    exact levelled.aside.pair frames opens closes bracket

theorem take_levelled (levelled : Levelled nextId lexemes r) (proper : lexeme.Proper)
    (continuable : Continuable (bracketsIn (lexemes ++ [lexeme]))) :
    Ends (Levelled nextId (lexemes ++ [lexeme])) (fun f => ¬ f.IsUnmatched) (r.take lexeme) := by
  have meant := Lexeme.bracket?_meaning r.parent r.symbols.contains proper r.location
  obtain ⟨journal, remarked⟩ := remark_frame r lexeme
  rw [take_eq r proper, remarked]
  cases found : lexeme.meaning r.location r.parent r.symbols.contains with
  | error fault =>
    rintro ⟨_, _, _, _, same⟩
    cases same
  | ok meaning =>
    rw [found] at meant
    exact accept_levelled levelled.aside meant continuable

-- Where a loop stops, all before it went well.
theorem each_eq_error {σ α : Type} {step : σ → α → Run σ} {s : σ} {xs : List α} {stop : Stop σ}
    (stopped : Run.each step s xs = .error stop) :
    ∃ front x back m, xs = front ++ x :: back ∧ Run.each step s front = .ok m ∧ step m x = .error stop := by
  induction xs generalizing s with
  | nil => cases stopped
  | cons x rest ih =>
    rw [each_cons] at stopped
    rcases andThen_eq_error stopped with failed | ⟨next, passed, later⟩
    · exact ⟨[], x, rest, s, rfl, rfl, failed⟩
    · obtain ⟨front, y, back, m, rfl, reached, failed⟩ := ih later
      exact ⟨x :: front, y, back, m, rfl, by rw [each_cons, passed]; exact reached, failed⟩

theorem step_levelled (levelled : Levelled nextId lexemes r) (proper : lexeme.Proper) (ran : r.step lexeme = .ok next) :
    Levelled nextId (lexemes ++ [lexeme]) next := by
  obtain ⟨mid, line, column, taken, rfl, _⟩ := step_eq_ok ran
  have continuable : Continuable (bracketsIn (lexemes ++ [lexeme])) := by
    by_contra stuck
    obtain ⟨_, _, refused⟩ := take_stuck levelled proper stuck
    rw [taken] at refused
    cases refused
  exact ((take_levelled levelled proper continuable).ok taken).aside

theorem each_levelled {before : List Lexeme} (levelled : Levelled nextId before r)
    (proper : ∀ lexeme ∈ lexemes, lexeme.Proper) (ran : Run.each step r lexemes = .ok next) :
    Levelled nextId (before ++ lexemes) next := by
  induction lexemes generalizing r before with
  | nil =>
    cases ran
    rwa [List.append_nil]
  | cons lexeme rest ih =>
    obtain ⟨mid, first, others⟩ := andThen_eq_ok ran
    have done := step_levelled levelled (proper lexeme List.mem_cons_self) first
    have whole := ih done (fun x member => proper x (List.mem_cons_of_mem _ member)) others
    rwa [List.append_assoc, List.singleton_append] at whole

theorem step_stuck (levelled : Levelled nextId lexemes r) (proper : lexeme.Proper)
    (stuck : ¬ Continuable (bracketsIn (lexemes ++ [lexeme]))) :
    ∃ found opened, r.step lexeme = r.fail (.unmatchedBracket found opened) := by
  obtain ⟨found, opened, refused⟩ := take_stuck levelled proper stuck
  refine ⟨found, opened, ?_⟩
  rw [step, refused]
  rfl

theorem stuck_of_step (levelled : Levelled nextId lexemes r) (proper : lexeme.Proper)
    (failed : r.step lexeme = .error stop) (unmatched : stop.failure.IsUnmatched) :
    ¬ Continuable (bracketsIn (lexemes ++ [lexeme])) := by
  intro continuable
  unfold step at failed
  cases taken : r.take lexeme with
  | ok mid =>
    rw [taken] at failed
    cases failed
  | error other =>
    rw [taken] at failed
    cases failed
    exact (take_levelled levelled proper continuable).error taken unmatched

end Reader

theorem Balanced.not_wellNested_after {c : Char} (balanced : Balanced (front ++ t :: back))
    (opens : t.kind.closer? = some c) : ¬ WellNested (bracketsOf back) := by
  obtain ⟨inside, closer, rest, rfl, settled, pairs⟩ := Nesting.partner balanced opens
  obtain ⟨d, _, closes⟩ := pairs.bracket
  exact not_wellNested_of_closes settled.wellNested closes rest

theorem not_wellNested_of_opens {c : Char} (opens : t.kind.closer? = some c) (nested : WellNested (bracketsOf back))
    (front : List Token) : ¬ WellNested (bracketsOf (front ++ t :: back)) := by
  obtain ⟨o, bracket, closes⟩ := TokenKind.bracket?_of_closer? opens
  rw [Bracket.wellNested_iff, bracketsOf_append, bracketsOf_cons, bracket, Bracket.scan_append]
  intro closed
  obtain ⟨awaited, _, later⟩ := Option.bind_eq_some_iff.mp closed
  rw [Option.toList_some, List.singleton_append, Bracket.scan_cons, Bracket.pass, closes] at later
  change Bracket.scan (c :: awaited) (bracketsOf back) = some [] at later
  rw [Bracket.scan_wellNested nested] at later
  cases later

namespace Reader

variable {r : Reader} {lexemes : List Lexeme} {nextId : Nat}

-- The innermost open bracket is the one after which everything is closed.
theorem Levelled.innermost {c : Char} (levelled : Levelled nextId lexemes r) (parts : r.tokens.toList = front ++ t :: back)
    (opens : t.kind.closer? = some c) (nested : WellNested (bracketsOf back)) :
    ∃ frame outer, r.frames = frame :: outer ∧ frame.opener = t := by
  rw [tokens_toList] at parts
  cases frames : r.frames with
  | nil =>
    have balanced := levelled.level
    rw [frames, outside, List.reverse_nil, List.flatMap_nil, List.nil_append] at parts
    rw [parts] at balanced
    exact absurd nested (balanced.not_wellNested_after opens)
  | cons frame outer =>
    refine ⟨frame, outer, rfl, ?_⟩
    obtain ⟨_, d, opensToo⟩ := levelled.frames frame (by simp [frames])
    rw [frames, outside_cons, List.append_assoc, List.append_assoc, List.singleton_append, ← List.append_assoc] at parts
    rcases List.append_eq_append_iff.mp parts with ⟨more, _, rest⟩ | ⟨more, _, rest⟩
    · cases more with
      | nil => exact (List.cons.inj rest).1
      | cons first more =>
        have balanced := levelled.level
        rw [(List.cons.inj rest).2] at balanced
        exact absurd nested (balanced.not_wellNested_after opens)
    · cases more with
      | nil => exact (List.cons.inj rest).1.symm
      | cons first more =>
        rw [(List.cons.inj rest).2] at nested
        exact absurd nested (not_wellNested_of_opens opensToo levelled.level.wellNested more)

-- Where the brackets of a text go wrong, everything before having been read: at a lexeme after which nothing can make
-- them well nested, or at the innermost bracket that is open at the end.
def BreaksAt (r m : Reader) (location : Location) : Prop :=
  (∃ front lexeme back, Lexeme.all r.source = front ++ lexeme :: back ∧ Run.each step r front = .ok m ∧
    ¬ Continuable (bracketsIn (front ++ [lexeme])) ∧ location = m.location) ∨
  (Run.each step r (Lexeme.all r.source) = .ok m ∧ ∃ front t back, m.tokens.toList = front ++ t :: back ∧
    (∃ c, t.kind.closer? = some c) ∧ WellNested (bracketsOf back) ∧ location = t.location)

theorem run_unmatched_iff (start : Levelled nextId [] r) (m : Reader) (location : Option Location) :
    (∃ found opened line, r.run = .fail m (.report ⟨.unmatchedBracket found opened, location, line⟩)) ↔
      ∃ place, location = some place ∧ BreaksAt r m place := by
  have proper := Lexeme.all_proper r.source
  constructor
  · rintro ⟨found, opened, line, ran⟩
    rcases andThen_eq_error ran with failed | ⟨last, reached, failed⟩
    · obtain ⟨front, lexeme, back, mid, parts, walked, refused⟩ := each_eq_error failed
      have inside := each_levelled start (fun x member => proper x (by simp [parts, member])) walked
      have stuck := stuck_of_step inside (proper lexeme (by simp [parts])) refused ⟨_, _, _, _, rfl⟩
      obtain ⟨_, _, same⟩ := step_stuck inside (proper lexeme (by simp [parts])) stuck
      rw [refused] at same
      cases same
      exact ⟨m.location, rfl, .inl ⟨front, lexeme, back, parts, walked, stuck, rfl⟩⟩
    · have inside := each_levelled start proper reached
      unfold finish at failed
      split at failed
      · cases failed
      · rename_i frame outer frames
        cases failed
        refine ⟨_, rfl, .inr ⟨reached, outside outer ++ frame.before.toList, frame.opener, m.latest.toList, ?_, ?_, ?_,
          rfl⟩⟩
        · simp [tokens_toList, frames, outside_cons]
        · exact (inside.frames frame (by simp [frames])).2
        · exact inside.level.wellNested
  · rintro ⟨place, rfl, ⟨front, lexeme, back, parts, walked, stuck, rfl⟩ |
      ⟨reached, front, t, back, parts, ⟨c, opens⟩, nested, rfl⟩⟩
    · have inside := each_levelled start (fun x member => proper x (by simp [parts, member])) walked
      obtain ⟨found, opened, refused⟩ := step_stuck inside (proper lexeme (by simp [parts])) stuck
      refine ⟨found, opened, m.sourceLine m.location, ?_⟩
      rw [run, parts, each_append, walked, andThen_ok, each_cons, refused]
      rfl
    · have inside := each_levelled start proper reached
      obtain ⟨frame, outer, frames, rfl⟩ := inside.innermost parts opens nested
      refine ⟨String.ofList frame.opener.kind.bracket?.toList, none, m.sourceLine frame.opener.location, ?_⟩
      rw [run, reached, andThen_ok, finish, frames]
      rfl

theorem run_levelled (start : Levelled nextId [] r) {next : Reader} (ran : r.run = .ok next) :
    Levelled nextId (Lexeme.all r.source) next ∧ Balanced next.tokens.toList := by
  obtain ⟨reached, frames⟩ := run_eq_ok ran
  have inside := each_levelled start (Lexeme.all_proper r.source) reached
  refine ⟨inside, ?_⟩
  rw [tokens_toList, frames]
  exact inside.level

-- Whatever a reading starts with. A text that is read has its brackets well nested, the partners of its tokens are the
-- matching of the brackets and no others, and a brace that opens has the label of the brace that closes it. A text is
-- refused for its brackets exactly where they cannot become well nested any more, or are not at the end.
theorem run_pairs_brackets (file : String) (source : List Char) (checkComments : Bool) (scope : Scope)
    (symbols : SymbolTable) (journal : Journal) (nextId : Nat) :
    let r : Reader := { file, source, checkComments, scope, symbols, journal, nextId }
    (∀ next, r.run = .ok next →
      bracketsOf next.tokens.toList = bracketsIn (Lexeme.all source) ∧ WellNested (bracketsOf next.tokens.toList) ∧
      (next.tokens.toList.map (·.id)).Nodup ∧
      (∀ t ∈ next.tokens.toList, ∀ id, t.partner = some id ↔
        ∃ u, u.id = id ∧ (Matching next.tokens.toList t u ∨ Matching next.tokens.toList u t)) ∧
      ∀ opener closer, Matching next.tokens.toList opener closer → opener.kind.label? = closer.kind.label?) ∧
    ∀ m location,
      (∃ found opened line, r.run = .fail m (.report ⟨.unmatchedBracket found opened, location, line⟩)) ↔
        ∃ place, location = some place ∧ r.BreaksAt m place := by
  intro r
  have start : Levelled nextId [] r := ⟨rfl, rfl, .nil, by simp [r], 0, rfl, rfl⟩
  refine ⟨?_, run_unmatched_iff start⟩
  intro next ran
  obtain ⟨levelled, balanced⟩ := run_levelled start ran
  obtain ⟨count, _, ids⟩ := levelled.serials
  have serials : (next.tokens.toList.map (·.id)).Nodup := ids ▸ List.nodup_range'
  refine ⟨levelled.word, balanced.wellNested, serials, ?_, ?_⟩
  · intro t member id
    exact balanced.partner_iff serials member id
  · intro opener closer matching
    exact (balanced.pairs_of_matching matching).label

-- Brackets of both sorts inside each other, and across each other.
theorem run_pairs_brackets_crossing :
    let start (source : String) : Reader :=
      { file := "f", source := source.toList, checkComments := true, scope := {}, symbols := {}, journal := [], nextId := 7 }
    (∃ next, (start "?\x7b [ #01 ] \x7d (])").run = .ok next ∧ bracketsOf next.tokens.toList = "\x7b[]\x7d".toList ∧
      WellNested "\x7b[]\x7d".toList ∧ ∀ opener closer, Matching next.tokens.toList opener closer →
        opener.kind.label? = closer.kind.label?) ∧
    ∃ m, (start "[ \x7b ] \x7d").BreaksAt m ⟨"f", 1, 5⟩ := by
  intro start
  constructor
  · have read : (start "?\x7b [ #01 ] \x7d (])").run.toOption.map (bracketsOf ·.tokens.toList) =
        some "\x7b[]\x7d".toList := by decide +kernel
    obtain ⟨next, found, word⟩ := Option.map_eq_some_iff.mp read
    have ran := eq_ok_of_toOption found
    obtain ⟨_, nested, _, _, labels⟩ := (run_pairs_brackets "f" "?\x7b [ #01 ] \x7d (])".toList true {} {} [] 7).1 next ran
    exact ⟨next, ran, word, word ▸ nested, labels⟩
  · have failed : (start "[ \x7b ] \x7d").run.failure? = some (.report
        ⟨.unmatchedBracket "]" (some ⟨"f", 1, 3⟩), some ⟨"f", 1, 5⟩, some "[ \x7b ] \x7d"⟩) := by decide +kernel
    obtain ⟨⟨_, m⟩, ran, rfl⟩ := eq_error_of_failure? failed
    obtain ⟨place, same, breaks⟩ :=
      ((run_pairs_brackets "f" "[ \x7b ] \x7d".toList true {} {} [] 7).2 m (some ⟨"f", 1, 5⟩)).mp ⟨_, _, _, ran⟩
    cases same
    exact ⟨m, breaks⟩

end Reader

end RuneAsm
