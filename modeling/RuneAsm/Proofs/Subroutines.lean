import Mathlib
import RuneAsm.Proofs.Expansion
import RuneAsm.Proofs.Laying

namespace RuneAsm

open Run

-- Brackets and inline subroutines after expansion. Whatever was copied and included, each bracket of the program has
-- its one partner in it, and each inline subroutine a label of its own, so that its reference leads to its own closing
-- brace and to no copy of it.

variable {tokens : List Token} {i j k m : Nat}

-- The token at one position opens what the token at a later one closes.
def Matched (tokens : List Token) (i j : Nat) : Prop :=
  i < j ∧ ∃ opener closer, tokens[i]? = some opener ∧ tokens[j]? = some closer ∧ Pairs opener closer

structure WellPaired (tokens : List Token) : Prop where
  opened : ∀ i opener c, tokens[i]? = some opener → opener.kind.closer? = some c → ∃! j, Matched tokens i j
  closed : ∀ j closer c, tokens[j]? = some closer → closer.kind.closes? = some c → ∃! i, Matched tokens i j
  alone : ∀ t ∈ tokens, t.kind.closer? = none → t.kind.closes? = none → t.partner = none
  nested : ∀ i j k m, Matched tokens i j → Matched tokens k m → i < k → j < k ∨ m < j

theorem index_of_id (serials : (tokens.map (·.id)).Nodup) {t u : Token} (left : tokens[i]? = some t)
    (right : tokens[j]? = some u) (same : t.id = u.id) : i = j := by
  have inRange : i < (tokens.map (·.id)).length := by
    rw [List.length_map]
    exact (List.getElem?_eq_some_iff.mp left).1
  refine (List.getElem?_inj inRange serials).mp ?_
  rw [List.getElem?_map, List.getElem?_map, left, right, Option.map_some, Option.map_some, same]

theorem Matched.closer_unique (serials : (tokens.map (·.id)).Nodup) (first : Matched tokens i j)
    (second : Matched tokens i k) : j = k := by
  obtain ⟨_, opener, closer, here, there, pairs⟩ := first
  obtain ⟨_, opener', closer', here', there', pairs'⟩ := second
  rw [here] at here'
  cases here'
  refine index_of_id serials there there' ?_
  exact Option.some.inj (pairs.forth.symm.trans pairs'.forth)

theorem Matched.opener_unique (serials : (tokens.map (·.id)).Nodup) (first : Matched tokens i k)
    (second : Matched tokens j k) : i = j := by
  obtain ⟨_, opener, closer, here, there, pairs⟩ := first
  obtain ⟨_, opener', closer', here', there', pairs'⟩ := second
  rw [there] at there'
  cases there'
  refine index_of_id serials here here' ?_
  exact Option.some.inj (pairs.back.symm.trans pairs'.back)

theorem split_at {t : Token} (here : tokens[i]? = some t) :
    ∃ front rest, tokens = front ++ t :: rest ∧ front.length = i := by
  obtain ⟨inRange, rfl⟩ := List.getElem?_eq_some_iff.mp here
  exact ⟨tokens.take i, tokens.drop (i + 1), by simp, by simp; omega⟩

-- The partner of an opening bracket, with the balanced text between the two.
theorem Balanced.matched (balanced : Balanced tokens) {opener : Token} {c : Char} (here : tokens[i]? = some opener)
    (opens : opener.kind.closer? = some c) :
    ∃ front inside closer back, tokens = front ++ opener :: (inside ++ closer :: back) ∧ front.length = i ∧
      Balanced inside ∧ Matched tokens i (i + 1 + inside.length) := by
  obtain ⟨front, rest, rfl, length⟩ := split_at here
  obtain ⟨inside, closer, back, rfl, within, pairs⟩ := Nesting.partner balanced opens
  refine ⟨front, inside, closer, back, rfl, length, within, by omega, opener, closer, here, ?_, pairs⟩
  rw [List.getElem?_append_right (by omega), List.getElem?_cons, if_neg (by omega),
    List.getElem?_append_right (by omega)]
  have zero : i + 1 + inside.length - front.length - 1 - inside.length = 0 := by omega
  rw [zero]
  rfl

theorem Balanced.wellPaired (balanced : Balanced tokens) (serials : (tokens.map (·.id)).Nodup) :
    WellPaired tokens where
  opened i opener c here opens := by
    obtain ⟨_, inside, _, _, _, _, _, matched⟩ := balanced.matched here opens
    exact ⟨_, matched, fun j other => other.closer_unique serials matched⟩
  closed j closer c here closes := by
    obtain ⟨front, rest, rfl, length⟩ := split_at here
    obtain ⟨opener, isOpen, pairs⟩ := Nesting.opened balanced closes
    have member : opener ∈ front := isOpen.resolve_left (by simp)
    obtain ⟨i, inRange, found⟩ := List.getElem_of_mem member
    have matched : Matched (front ++ closer :: rest) i j := by
      refine ⟨by omega, opener, closer, ?_, here, pairs⟩
      rw [List.getElem?_append_left inRange, List.getElem?_eq_getElem inRange, found]
    exact ⟨i, matched, fun other again => again.opener_unique serials matched⟩
  alone t member opensNone closesNone := by
    obtain ⟨front, rest, rfl⟩ := List.append_of_mem member
    obtain ⟨middle, _, later⟩ := Nesting.split balanced
    exact (later.of_plain opensNone closesNone).1
  nested i j k m outer inner later := by
    by_cases after : j < k
    · exact .inl after
    -- Otherwise the inner bracket is opened in the balanced text of the outer pair, and closed there.
    obtain ⟨_, opener, _, here, there, pairs⟩ := id outer
    obtain ⟨_, innerOpener, _, innerHere, _, innerPairs⟩ := id inner
    obtain ⟨c, opens, closes⟩ := pairs.bracket
    obtain ⟨d, innerOpens, _⟩ := innerPairs.bracket
    obtain ⟨front, inside, closer, back, rfl, length, within, matched⟩ := balanced.matched here opens
    have ends : j = i + 1 + inside.length := outer.closer_unique serials matched
    have apart : k ≠ j := by
      rintro rfl
      rw [there] at innerHere
      cases innerHere
      rw [closer?_of_closes? closes] at innerOpens
      cases innerOpens
    have shift (n : Nat) (bound : n < inside.length) :
        (front ++ opener :: (inside ++ closer :: back))[i + 1 + n]? = inside[n]? := by
      rw [List.getElem?_append_right (by omega), List.getElem?_cons, if_neg (by omega),
        List.getElem?_append_left (by omega)]
      congr 1
      omega
    obtain ⟨n, rfl⟩ : ∃ n, k = i + 1 + n := ⟨k - (i + 1), by omega⟩
    have bound : n < inside.length := by omega
    rw [shift n bound] at innerHere
    obtain ⟨_, deeper, _, _, split, start, _, low, o, cl, oHere, cHere, oPairs⟩ := within.matched innerHere innerOpens
    have lastBound : n + 1 + deeper.length < inside.length := (List.getElem?_eq_some_iff.mp cHere).1
    have again : Matched (front ++ opener :: (inside ++ closer :: back)) (i + 1 + n)
        (i + 1 + (n + 1 + deeper.length)) := by
      refine ⟨by omega, o, cl, ?_, ?_, oPairs⟩
      · rw [shift n bound, oHere]
      · rw [shift _ lastBound, cHere]
    have same := inner.closer_unique serials again
    exact .inr (by omega)

-- The names in a token that were written in a text: those of labels, implied parents and named references.
def TokenKind.writes : TokenKind → List String
  | .parentLabel label implied => label :: implied.toList
  | .childLabel label => [label]
  | .reference r =>
    match r.target with
    | .named label => [label]
    | .inline _ => []
  | _ => []

theorem TokenKind.plain_of_writes {kind : TokenKind} (regular : kind.Regular) :
    ∀ name ∈ kind.writes, Plain name := by
  intro name member
  cases kind with
  | parentLabel label implied =>
    rcases List.mem_cons.mp member with rfl | parent
    · exact regular.1
    · exact regular.2 name (Option.mem_toList.mp parent)
  | childLabel label =>
    rw [List.mem_singleton.mp member]
    exact regular
  | reference r =>
    have suits := regular.2
    cases target : r.target with
    | named label =>
      rw [target] at suits
      simp only [writes, target, List.mem_singleton] at member
      rw [member]
      exact suits.1
    | «inline» label => simp [writes, target] at member
  | _ => cases member

theorem not_plain_of_closer (regular : ∀ t ∈ tokens, t.kind.Regular) :
    ∀ label ∈ closerLabels tokens, ¬ Plain label := by
  intro label member
  obtain ⟨t, there, kind⟩ := mem_closerLabels.mp member
  have here := regular t there
  rw [kind] at here
  exact here

theorem closer_later {t u : Token} {label : String} (labels : (closerLabels tokens).Nodup)
    (left : tokens[i]? = some t) (right : tokens[j]? = some u) (leftKind : t.kind = .subroutineClose label)
    (rightKind : u.kind = .subroutineClose label) : ¬ i < j := by
  intro lower
  obtain ⟨front, rest, rfl, rfl⟩ := split_at left
  have late : u ∈ rest := by
    rw [List.getElem?_append_right (by omega), List.getElem?_cons, if_neg (by omega)] at right
    exact List.mem_of_getElem? right
  rw [closerLabels_append, closerLabels_cons, leftKind] at labels
  have once := (List.nodup_cons.mp (List.nodup_append.mp labels).2.1).1
  exact once (mem_closerLabels.mpr ⟨u, late, rightKind⟩)

namespace Layout

variable {l last : Layout} {o : Operand}

-- The operand has the value of the address at which the walk over the tokens stands after so many of them.
def LeadsTo (l : Layout) (tokens : List Token) (count : Nat) (o : Operand) : Prop :=
  ∃ there value, Run.each step l.restart (tokens.take count) = .ok there ∧ o.valueFor there.target = .ok value ∧
    o.value = some value

-- A label that one closing brace alone places leads there.
theorem Resolved.leadsTo (resolved : Resolved l tokens last) (regular : ∀ t ∈ tokens, t.kind.Regular)
    (labels : (closerLabels tokens).Nodup) (member : .operand o ∈ last.records.toList) {closer : Token}
    (there : tokens[j]? = some closer) (kind : closer.kind = .subroutineClose o.label) : l.LeadsTo tokens j o := by
  obtain ⟨_, _, address, value, placed, given, filled⟩ := resolved.values o member
  obtain ⟨front, t, back, reached, rfl, walked, places, rfl⟩ := placed
  have spaced : ¬ Plain o.label := by
    have here := regular closer (List.mem_of_getElem? there)
    rw [kind] at here
    exact here
  have brace : t.kind = .subroutineClose o.label :=
    (TokenKind.places_cases (regular t (by simp)) places).resolve_left spaced
  have position : j = front.length := by
    have here : (front ++ t :: back)[front.length]? = some t := by simp
    have earlier := closer_later labels there here kind brace
    have later := closer_later labels here there brace kind
    omega
  refine ⟨reached, value, ?_, given, filled⟩
  rw [position, List.take_left]
  exact walked

end Layout

namespace Expander

variable {e : Expander}

-- Every copy has its own brackets and its own labels. Hence no layout, from any base and any table, places an
-- anonymous label twice or misses one, and each inline reference leads to its own closing brace.
theorem processSource_subroutines (ctx : Context) (source : List Char) (file : String) (journal : Journal)
    (ran : processSource ctx source file { journal } = .ok e) :
    ((e.program ++ e.macros.bodies).map (·.id)).Nodup ∧
    WellPaired e.program ∧
    (closerLabels e.program).Nodup ∧
    (∀ label ∈ closerLabels e.program, e.symbols.Anonymous label) ∧
    (∀ t ∈ e.program ++ e.macros.bodies, ∀ name ∈ t.kind.writes, name ∉ closerLabels e.program) ∧
    ∀ l : Layout, Ends
      (fun last => ∀ i j opener label, Matched e.program i j → e.program[i]? = some opener →
        opener.kind.label? = some label →
        (∃ o, .operand o ∈ last.records.toList ∧ o.token = opener) ∧
        ∀ o, .operand o ∈ last.records.toList → o.token = opener → o.label = label ∧ l.LeadsTo e.program j o)
      (fun f => ∃ d, f = .report d ∧ ∀ label ∈ closerLabels e.program, d.cause.misplaced? ≠ some label)
      (l.generate e.program) := by
  obtain ⟨holds, orderly, settled⟩ := (processSource_ends ctx source file (holds_fresh journal)).ok ran
  have labels := holds.custody.labels
  have declared := holds.custody.declared
  rw [closerLabels_append] at labels declared
  have single := labels.of_append_left
  have spaced := not_plain_of_closer orderly.regular
  have regular : ∀ t ∈ e.program ++ e.macros.bodies, t.kind.Regular := by
    intro t member
    rcases List.mem_append.mp member with live | stored
    · exact orderly.regular t live
    · obtain ⟨m, entry, inBody⟩ := List.mem_flatMap.mp stored
      exact (holds.stored m entry).1.regular t inBody
  refine ⟨holds.custody.serials, orderly.balanced.wellPaired holds.serials, single, ?_, ?_, ?_⟩
  · exact fun label member => declared label (List.mem_append_left _ member)
  · intro t member name written closing
    exact spaced name closing (TokenKind.plain_of_writes (regular t member) name written)
  · intro l
    refine (Layout.generate_ends l orderly settled.spliced single).mono ?_ ?_
    · rintro last resolved i j opener label ⟨_, opener', closer, here, there, pairs⟩ same labelled
      rw [here] at same
      cases same
      obtain ⟨r, kind⟩ := pairs.reference labelled
      refine ⟨resolved.operands opener (List.mem_of_getElem? here) r kind, ?_⟩
      rintro o member rfl
      obtain ⟨_, own, _⟩ := resolved.values o member
      rw [labelled] at own
      cases own
      exact ⟨rfl, resolved.leadsTo orderly.regular single member there (pairs.closer_kind labelled)⟩
    · rintro f ⟨d, rfl, _, plain⟩
      exact ⟨d, rfl, fun label member misplaced => spaced label member (plain label misplaced)⟩

-- The body of a macro holds an inline subroutine; it is used twice, and once inside another subroutine.
theorem processSource_subroutines_copies :
    ∃ e, processSource ⟨{}, ⟨[], []⟩⟩ "%m [ ?\x7b #01 \x7d ] @a m m \x7b [ m ] \x7d".toList "<input>" {} = .ok e ∧
      (closerLabels e.program).length = 4 ∧ WellPaired e.program ∧ (closerLabels e.program).Nodup := by
  have counted : (processSource ⟨{}, ⟨[], []⟩⟩ "%m [ ?\x7b #01 \x7d ] @a m m \x7b [ m ] \x7d".toList "<input>"
      {}).toOption.map (fun e => (closerLabels e.program).length) = some 4 := by decide +kernel
  obtain ⟨e, ran, count⟩ := Option.map_eq_some_iff.mp counted
  have expanded := eq_ok_of_toOption ran
  obtain ⟨_, paired, distinct, _⟩ := processSource_subroutines _ _ _ [] expanded
  exact ⟨e, expanded, count, paired, distinct⟩

end Expander

end RuneAsm
