import Mathlib
import RuneAsm.Proofs.Expansion
import RuneAsm.Proofs.Respacing.Reading

namespace RuneAsm

-- Brackets in lists that agree token by token but for spacing. What one list encloses after a definition, the other
-- encloses too.

structure SameShape (t t' : Token) : Prop where
  opens : t'.kind.closer? = t.kind.closer?
  closes : t'.kind.closes? = t.kind.closes?
  body : Expander.opensBody t'.kind = Expander.opensBody t.kind
  gap : Expander.isGap t' = Expander.isGap t

theorem SameShape.symm {t t' : Token} (same : SameShape t t') : SameShape t' t :=
  ⟨same.opens.symm, same.closes.symm, same.body.symm, same.gap.symm⟩

variable {R : Token → Token → Prop} {t opener closer : Token} {xs ys tokens tokens' : List Token}

theorem solid_of_closer? {c : Char} (opens : t.kind.closer? = some c) : t.kind.isSpacing = false := by
  cases kind : t.kind <;> simp_all [TokenKind.closer?, TokenKind.isSpacing]

theorem solid_of_closes? {c : Char} (closes : t.kind.closes? = some c) : t.kind.isSpacing = false := by
  cases kind : t.kind <;> simp_all [TokenKind.closes?, TokenKind.isSpacing]

theorem unspaced_nesting {stack after : List Token} (nesting : Nesting stack tokens after) :
    Nesting (unspaced stack) (unspaced tokens) (unspaced after) := by
  refine nesting.filter ?_
  intro o c pairs
  obtain ⟨_, opens, closes⟩ := pairs.bracket
  rw [solid_of_closer? opens, solid_of_closes? closes]

theorem isGap_of_spacing (spacing : t.kind.isSpacing = true) : Expander.isGap t = true := by
  cases kind : t.kind <;>
    simp_all [TokenKind.isSpacing, Expander.isGap, Token.isTransparent, TokenKind.isTransparent]

theorem mapLabel_opensBody {σ : String → String} {kind : TokenKind} :
    Expander.opensBody (kind.mapLabel σ) = Expander.opensBody kind := by
  cases kind with
  | reference r =>
    rw [mapLabel_reference]
    rfl
  | _ => rfl

-- Spacing before the counterpart of a token goes to what precedes it.
theorem agree_parts (agree : List.Forall₂ R (xs ++ t :: ys) (unspaced tokens')) :
    ∃ front t' back, tokens' = front ++ t' :: back ∧ List.Forall₂ R xs (unspaced front) ∧ R t t' ∧
      List.Forall₂ R ys (unspaced back) := by
  induction xs generalizing tokens' with
  | nil =>
    obtain ⟨t', more, first, later, parts⟩ := List.forall₂_cons_left_iff.mp agree
    obtain ⟨front, back, rfl, spacing, _, rfl⟩ := List.filter_eq_cons_iff.mp parts
    have none : unspaced front = [] := List.filter_eq_nil_iff.mpr spacing
    exact ⟨front, t', back, rfl, by rw [none]; exact .nil, first, later⟩
  | cons x xs ih =>
    obtain ⟨x', more, first, later, parts⟩ := List.forall₂_cons_left_iff.mp agree
    obtain ⟨before, after, rfl, spacing, solid, rfl⟩ := List.filter_eq_cons_iff.mp parts
    obtain ⟨front, t', back, rfl, early, here, late⟩ := ih later
    have none : unspaced before = [] := List.filter_eq_nil_iff.mpr spacing
    refine ⟨before ++ x' :: front, t', back, by simp, ?_, here, late⟩
    rw [unspaced_append, none, unspaced_cons_of_solid _ (by simpa using solid)]
    exact .cons first early

theorem agree_mem {α β : Type} {R : α → β → Prop} {xs : List α} {ys : List β} {y : β} (agree : List.Forall₂ R xs ys)
    (member : y ∈ ys) : ∃ x ∈ xs, R x y := by
  induction agree with
  | nil => cases member
  | cons first _ ih =>
    rcases List.mem_cons.mp member with rfl | later
    · exact ⟨_, List.mem_cons_self, first⟩
    · obtain ⟨x, there, related⟩ := ih later
      exact ⟨x, List.mem_cons_of_mem _ there, related⟩

-- Tokens of one shape open and close together, so what is open further out stays open on both sides.
theorem Nesting.outer {stack after last : List Token} (stack' below : List Token) (nesting : Nesting stack xs after)
    (shapes : List.Forall₂ SameShape xs ys) (nesting' : Nesting (stack' ++ below) ys last)
    (depth : stack'.length = stack.length) : ∃ after', last = after' ++ below ∧ after'.length = after.length := by
  induction nesting generalizing ys stack' with
  | done stack =>
    cases shapes
    generalize whole : stack' ++ below = full at nesting'
    cases nesting'
    exact ⟨stack', whole.symm, depth⟩
  | plain opensNone closesNone alone tail ih =>
    obtain ⟨y, more, same, later, rfl⟩ := List.forall₂_cons_left_iff.mp shapes
    obtain ⟨_, tail'⟩ := nesting'.of_plain (same.opens.trans opensNone) (same.closes.trans closesNone)
    exact ih stack' later tail' depth
  | opening opens tail ih =>
    obtain ⟨y, more, same, later, rfl⟩ := List.forall₂_cons_left_iff.mp shapes
    exact ih (y :: stack') later (nesting'.of_opening (same.opens.trans opens)) (by simp [depth])
  | closing pairs tail ih =>
    obtain ⟨y, more, same, later, rfl⟩ := List.forall₂_cons_left_iff.mp shapes
    obtain ⟨c, _, closes⟩ := pairs.bracket
    obtain ⟨top, inner, whole, _, tail'⟩ := nesting'.of_closing (same.closes.trans closes)
    cases stack' with
    | nil => simp at depth
    | cons first stack' =>
      obtain ⟨_, rfl⟩ := List.cons.inj whole
      exact ih stack' later tail' (by simpa using depth)

namespace Expander

structure BodySpan.Like (R : Token → Token → Prop) (span span' : BodySpan) : Prop where
  gap : List.Forall₂ R (unspaced span.gap) (unspaced span'.gap)
  inside : List.Forall₂ R (unspaced span.inside) (unspaced span'.inside)
  closer : R span.closer span'.closer
  rest : List.Forall₂ R (unspaced span.rest) (unspaced span'.rest)

-- The counterparts of a bracket and of its partner are partners, because they enclose the same brackets.
theorem bodySpan_follows {span : BodySpan} {stack : List Token} (shape : ∀ t t', R t t' → SameShape t t')
    (fits : span.Fits tokens) (agree : List.Forall₂ R (unspaced tokens) (unspaced tokens'))
    (nesting : Nesting stack tokens' []) (serials : (tokens'.map (·.id)).Nodup) :
    ∃ span', bodySpan tokens' = .ok span' ∧ BodySpan.Like R span span' := by
  obtain ⟨c, opens, closes⟩ := fits.pairs.bracket
  rw [fits.parts, unspaced_append, unspaced_cons_of_solid _ (solid_of_closer? opens), unspaced_append,
    unspaced_cons_of_solid _ (solid_of_closes? closes)] at agree
  obtain ⟨gap, opener, after, rfl, gaps, openers, agree⟩ := agree_parts agree
  obtain ⟨inside, closer, rest, rfl, insides, closers, rests⟩ := agree_parts agree
  have opens' := (shape _ _ openers).opens.trans opens
  have closes' := (shape _ _ closers).closes.trans closes
  have pairs : Pairs opener closer := by
    obtain ⟨middle, _, later⟩ := nesting.split
    obtain ⟨last, within, final⟩ := (later.of_opening opens').split
    obtain ⟨top, outer, rfl, pairs, _⟩ := final.of_closing closes'
    obtain ⟨_, opensTop, _⟩ := pairs.bracket
    obtain ⟨none, same, length⟩ := Nesting.outer [] (unspaced (opener :: middle)) (unspaced_nesting fits.inside)
      (insides.imp fun _ _ related => shape _ _ related) (unspaced_nesting within) rfl
    rw [List.length_eq_zero_iff.mp length, List.nil_append, unspaced_cons_of_solid _ (solid_of_closer? opensTop),
      unspaced_cons_of_solid _ (solid_of_closer? opens')] at same
    rwa [← (List.cons.inj same).1]
  have skipped : ∀ u ∈ gap, isGap u = true := by
    intro u member
    cases spacing : u.kind.isSpacing with
    | true => exact isGap_of_spacing spacing
    | false =>
      obtain ⟨original, there, related⟩ := agree_mem gaps (List.mem_filter.mpr ⟨member, by simp [spacing]⟩)
      exact (shape _ _ related).gap.trans (fits.gap _ (List.mem_of_mem_filter there))
  have opensBody' := (shape _ _ openers).body.trans fits.opens
  exact ⟨_, bodySpan_of_parts skipped opensBody' pairs.forth serials, gaps, insides, closers, rests⟩

end Expander

end RuneAsm
