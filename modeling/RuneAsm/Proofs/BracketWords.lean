import Mathlib
import RuneAsm.Proofs.Brackets

namespace RuneAsm

-- Words of brackets of two sorts. A word is well nested if every bracket has its partner; which brackets can still make
-- it so is told by those that wait for theirs. The brackets of tokens in good order are such a word, and the partners
-- of the tokens are its matching.

-- What closes a bracket.
def closerOf? : Char → Option Char
  | '[' => some ']'
  | '\x7b' => some '\x7d'
  | _ => none

-- The words in which every bracket has its partner.
inductive WellNested : List Char → Prop where
  | nil : WellNested []
  | enclose {o c : Char} {word : List Char} (closes : closerOf? o = some c) (inside : WellNested word) :
      WellNested (o :: (word ++ [c]))
  | append {first second : List Char} (left : WellNested first) (right : WellNested second) :
      WellNested (first ++ second)

-- A word that is the start of one in which every bracket has its partner.
def Continuable (word : List Char) : Prop := ∃ more, WellNested (word ++ more)

namespace Bracket

-- The closing brackets that are waited for, innermost first.
def pass (awaited : List Char) (c : Char) : Option (List Char) :=
  match closerOf? c with
  | some closer => some (closer :: awaited)
  | none => if awaited.head? = some c then some awaited.tail else none

def scan (awaited word : List Char) : Option (List Char) := word.foldlM pass awaited

variable {awaited after word more : List Char} {c : Char}

theorem scan_append (awaited word more : List Char) : scan awaited (word ++ more) = (scan awaited word).bind (scan · more) :=
  List.foldlM_append

theorem scan_cons (awaited : List Char) (c : Char) (word : List Char) :
    scan awaited (c :: word) = (pass awaited c).bind (scan · word) := List.foldlM_cons

theorem closerOf?_closer {o : Char} (closes : closerOf? o = some c) : closerOf? c = none := by
  unfold closerOf? at closes
  split at closes <;> cases closes <;> rfl

theorem pass_closer (awaited : List Char) {o : Char} (closes : closerOf? o = some c) :
    pass (c :: awaited) c = some awaited := by
  simp [pass, closerOf?_closer closes]

theorem scan_wellNested (nested : WellNested word) (awaited : List Char) : scan awaited word = some awaited := by
  induction nested generalizing awaited with
  | nil => rfl
  | enclose closes inside ih =>
    rw [scan_cons, pass, closes]
    change scan (_ :: awaited) (_ ++ [_]) = some awaited
    rw [scan_append, ih, Option.bind_some, scan_cons, pass_closer awaited closes]
    rfl
  | append left right first second => rw [scan_append, first, Option.bind_some, second]

-- Word by word down to the end: before each bracket that is waited for everything is closed.
def Descends : List Char → List Char → Prop
  | [], word => WellNested word
  | c :: awaited, word => ∃ inside rest, word = inside ++ c :: rest ∧ WellNested inside ∧ Descends awaited rest

theorem Descends.prepend {front : List Char} (nested : WellNested front) (descends : Descends awaited word) :
    Descends awaited (front ++ word) := by
  cases awaited with
  | nil => exact nested.append descends
  | cons c awaited =>
    obtain ⟨inside, rest, rfl, inner, outer⟩ := descends
    exact ⟨front ++ inside, rest, by simp, nested.append inner, outer⟩

theorem descends_of_scan (closed : scan awaited word = some []) : Descends awaited word := by
  induction word generalizing awaited with
  | nil =>
    cases closed
    exact .nil
  | cons c word ih =>
    rw [scan_cons] at closed
    obtain ⟨next, passed, later⟩ := Option.bind_eq_some_iff.mp closed
    have rest := ih later
    unfold pass at passed
    cases opens : closerOf? c with
    | some closer =>
      rw [opens] at passed
      cases passed
      obtain ⟨inside, below, rfl, inner, outer⟩ := rest
      have around := outer.prepend (.enclose opens inner)
      simpa using around
    | none =>
      rw [opens] at passed
      cases awaited with
      | nil => simp at passed
      | cons top awaited =>
        simp only [List.head?_cons, List.tail_cons, Option.ite_none_right_eq_some, Option.some.injEq] at passed
        obtain ⟨rfl, rfl⟩ := passed
        exact ⟨[], word, rfl, .nil, rest⟩

theorem wellNested_iff : WellNested word ↔ scan [] word = some [] :=
  ⟨fun nested => scan_wellNested nested [], fun closed => descends_of_scan closed⟩

-- What is waited for closes brackets, so it can be supplied.
theorem scan_closers (closers : ∀ c ∈ awaited, closerOf? c = none) : scan awaited awaited = some [] := by
  induction awaited with
  | nil => rfl
  | cons c awaited ih =>
    have here := closers c List.mem_cons_self
    rw [scan_cons, pass, here]
    simpa using ih fun d member => closers d (List.mem_cons_of_mem _ member)

theorem pass_closers (closers : ∀ c ∈ awaited, closerOf? c = none) (passed : pass awaited c = some after) :
    ∀ d ∈ after, closerOf? d = none := by
  unfold pass at passed
  cases opens : closerOf? c with
  | some closer =>
    rw [opens] at passed
    cases passed
    intro d member
    rcases List.mem_cons.mp member with rfl | below
    · exact closerOf?_closer opens
    · exact closers d below
  | none =>
    rw [opens] at passed
    simp only [Option.ite_none_right_eq_some, Option.some.injEq] at passed
    intro d member
    exact closers d (List.mem_of_mem_tail (passed.2 ▸ member))

theorem scan_awaits_closers (closers : ∀ c ∈ awaited, closerOf? c = none) (scanned : scan awaited word = some after) :
    ∀ d ∈ after, closerOf? d = none := by
  induction word generalizing awaited with
  | nil =>
    cases scanned
    exact closers
  | cons c word ih =>
    rw [scan_cons] at scanned
    obtain ⟨next, passed, later⟩ := Option.bind_eq_some_iff.mp scanned
    exact ih (pass_closers closers passed) later

theorem continuable_iff : Continuable word ↔ (scan [] word).isSome = true := by
  constructor
  · rintro ⟨more, nested⟩
    rw [wellNested_iff, scan_append] at nested
    obtain ⟨after, scanned, _⟩ := Option.bind_eq_some_iff.mp nested
    simp [scanned]
  · intro some
    obtain ⟨after, scanned⟩ := Option.isSome_iff_exists.mp some
    refine ⟨after, ?_⟩
    rw [wellNested_iff, scan_append, scanned]
    exact scan_closers (scan_awaits_closers (by simp) scanned)

-- A word that leaves a closing bracket over is none in which every bracket has its partner.
theorem not_wellNested_of_closer {front back : List Char} (nested : WellNested front) (closer : closerOf? c = none) :
    ¬ WellNested (front ++ c :: back) := by
  rw [wellNested_iff, scan_append, scan_wellNested nested, Option.bind_some, scan_cons, pass, closer]
  simp

end Bracket

theorem TokenKind.closer?_eq (kind : TokenKind) : kind.closer? = kind.bracket?.bind closerOf? := by
  cases kind with
  | reference r => cases target : r.target <;> simp [closer?, bracket?, target, closerOf?]
  | _ => rfl

theorem TokenKind.closes?_eq (kind : TokenKind) : kind.closes? = kind.bracket?.filter fun c => (closerOf? c).isNone := by
  cases kind with
  | reference r =>
    cases target : r.target <;> simp only [closes?, bracket?, target] <;> rfl
  | _ => rfl

theorem TokenKind.bracket?_of_closes? {kind : TokenKind} {c : Char} (closes : kind.closes? = some c) :
    kind.bracket? = some c ∧ closerOf? c = none := by
  rw [closes?_eq, Option.filter_eq_some_iff] at closes
  exact ⟨closes.1, by simpa using closes.2⟩

theorem TokenKind.bracket?_of_closer? {kind : TokenKind} {c : Char} (opens : kind.closer? = some c) :
    ∃ o, kind.bracket? = some o ∧ closerOf? o = some c := by
  rw [closer?_eq] at opens
  exact Option.bind_eq_some_iff.mp opens

theorem TokenKind.bracket?_eq_none {kind : TokenKind} (opensNone : kind.closer? = none)
    (closesNone : kind.closes? = none) : kind.bracket? = none := by
  cases bracket : kind.bracket? with
  | none => rfl
  | some c => simp_all [closer?_eq, closes?_eq, Option.isNone_iff_eq_none]

-- The brackets among tokens, in order.
def bracketsOf (tokens : List Token) : List Char := tokens.filterMap (·.kind.bracket?)

-- Two brackets of one sort, with every bracket between them closed.
def Matching (tokens : List Token) (opener closer : Token) : Prop :=
  ∃ front inside back c, tokens = front ++ opener :: (inside ++ closer :: back) ∧ opener.kind.closer? = some c ∧
    closer.kind.closes? = some c ∧ WellNested (bracketsOf inside)

variable {tokens front back inside stack after : List Token} {t u opener closer : Token}

theorem bracketsOf_append (front back : List Token) : bracketsOf (front ++ back) = bracketsOf front ++ bracketsOf back := by
  simp [bracketsOf]

theorem bracketsOf_cons (t : Token) (rest : List Token) : bracketsOf (t :: rest) = t.kind.bracket?.toList ++ bracketsOf rest := by
  unfold bracketsOf
  cases bracket : t.kind.bracket? <;> simp [bracket]

theorem Nesting.scan (nesting : Nesting stack tokens after) :
    Bracket.scan (stack.filterMap (·.kind.closer?)) (bracketsOf tokens) = some (after.filterMap (·.kind.closer?)) := by
  induction nesting with
  | done stack => rfl
  | plain opensNone closesNone _ _ ih =>
    rw [bracketsOf_cons, TokenKind.bracket?_eq_none opensNone closesNone]
    exact ih
  | opening opens _ ih =>
    obtain ⟨o, bracket, closes⟩ := TokenKind.bracket?_of_closer? opens
    rw [bracketsOf_cons, bracket, Option.toList_some, List.singleton_append, Bracket.scan_cons, Bracket.pass, closes]
    simpa [opens] using ih
  | closing pairs _ ih =>
    obtain ⟨c, opens, closes⟩ := pairs.bracket
    obtain ⟨bracket, closer⟩ := TokenKind.bracket?_of_closes? closes
    rw [bracketsOf_cons, bracket, Option.toList_some, List.singleton_append, Bracket.scan_cons, Bracket.pass, closer]
    simpa [opens] using ih

theorem Balanced.wellNested (balanced : Balanced tokens) : WellNested (bracketsOf tokens) :=
  Bracket.wellNested_iff.mpr (Nesting.scan balanced)

theorem not_wellNested_of_closes {c : Char} (nested : WellNested (bracketsOf inside)) (closes : t.kind.closes? = some c)
    (rest : List Token) : ¬ WellNested (bracketsOf (inside ++ t :: rest)) := by
  obtain ⟨bracket, closer⟩ := TokenKind.bracket?_of_closes? closes
  rw [bracketsOf_append, bracketsOf_cons, bracket]
  exact Bracket.not_wellNested_of_closer nested closer

-- The word of brackets leaves only one partner to choose.
theorem Balanced.pairs_of_matching (balanced : Balanced tokens) (matching : Matching tokens opener closer) :
    Pairs opener closer := by
  obtain ⟨front, inside, back, c, rfl, opens, closes, nested⟩ := matching
  obtain ⟨inner, partner, later, parts, settled, pairs⟩ := Nesting.partner balanced opens
  obtain ⟨d, _, closesToo⟩ := pairs.bracket
  rcases List.append_eq_append_iff.mp parts with ⟨more, rfl, rest⟩ | ⟨more, rfl, rest⟩
  · cases more with
    | nil =>
      obtain ⟨rfl, _⟩ := List.cons.inj rest
      exact pairs
    | cons first more =>
      obtain ⟨rfl, _⟩ := List.cons.inj rest
      exact absurd settled.wellNested (not_wellNested_of_closes nested closes more)
  · cases more with
    | nil =>
      obtain ⟨rfl, _⟩ := List.cons.inj rest
      exact pairs
    | cons first more =>
      obtain ⟨rfl, _⟩ := List.cons.inj rest
      exact absurd nested (not_wellNested_of_closes settled.wellNested closesToo more)

theorem Balanced.matching_of_opener {c : Char} (balanced : Balanced tokens) (member : t ∈ tokens)
    (opens : t.kind.closer? = some c) : ∃ u, Pairs t u ∧ Matching tokens t u := by
  obtain ⟨front, back, rfl⟩ := List.append_of_mem member
  obtain ⟨inside, closer, rest, rfl, settled, pairs⟩ := Nesting.partner balanced opens
  obtain ⟨d, opensToo, closes⟩ := pairs.bracket
  exact ⟨closer, pairs, front, inside, rest, d, rfl, opensToo, closes, settled.wellNested⟩

theorem Balanced.matching_of_closer {c : Char} (balanced : Balanced tokens) (serials : (tokens.map (·.id)).Nodup)
    (member : t ∈ tokens) (closes : t.kind.closes? = some c) : ∃ u, Pairs u t ∧ Matching tokens u t := by
  obtain ⟨front, back, parts⟩ := List.append_of_mem member
  obtain ⟨opener, isOpen, pairs⟩ := Nesting.opened (parts ▸ balanced : Nesting [] (front ++ t :: back) []) closes
  have there : opener ∈ tokens := by
    rw [parts]
    exact List.mem_append_left _ (isOpen.resolve_left (by simp))
  obtain ⟨d, opens, _⟩ := pairs.bracket
  obtain ⟨other, otherPairs, matching⟩ := balanced.matching_of_opener there opens
  have otherMember : other ∈ tokens := by
    obtain ⟨front, inside, back, _, rfl, _⟩ := matching
    simp
  have sameId : other.id = t.id := Option.some.inj (otherPairs.forth.symm.trans pairs.forth)
  obtain rfl := List.inj_on_of_nodup_map serials otherMember member sameId
  exact ⟨opener, pairs, matching⟩

-- The partners are the matching of the word of brackets, seen from both sides.
theorem Balanced.partner_iff (balanced : Balanced tokens) (serials : (tokens.map (·.id)).Nodup) (member : t ∈ tokens)
    (id : Nat) : t.partner = some id ↔ ∃ u, u.id = id ∧ (Matching tokens t u ∨ Matching tokens u t) := by
  constructor
  · intro partner
    cases opens : t.kind.closer? with
    | some c =>
      obtain ⟨u, pairs, matching⟩ := balanced.matching_of_opener member opens
      exact ⟨u, Option.some.inj (pairs.forth.symm.trans partner), .inl matching⟩
    | none =>
      cases closes : t.kind.closes? with
      | some c =>
        obtain ⟨u, pairs, matching⟩ := balanced.matching_of_closer serials member closes
        exact ⟨u, Option.some.inj (pairs.back.symm.trans partner), .inr matching⟩
      | none =>
        obtain ⟨front, back, rfl⟩ := List.append_of_mem member
        obtain ⟨_, _, later⟩ := Nesting.split balanced
        rw [(later.of_plain opens closes).1] at partner
        cases partner
  · rintro ⟨u, rfl, forth | back⟩
    · exact (balanced.pairs_of_matching forth).forth
    · exact (balanced.pairs_of_matching back).back

end RuneAsm
