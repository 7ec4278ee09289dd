import Mathlib
import RuneAsm.Proofs.Names

namespace RuneAsm

-- Renamings of labels that keep the names of a program and the numbering of copies. The labels that one text gives to
-- its inline subroutines can be turned into those of another text by such a renaming, whatever lines and columns they
-- were made from.

structure Renaming (σ : String → String) : Prop where
  injective : Function.Injective σ
  plain : ∀ x, Plain x → σ x = x
  copy : ∀ (x : String) (n : Nat), σ s!"{x}#{n}" = s!"{σ x}#{n}"

namespace Renaming

variable {σ : String → String} {x y : String}

theorem keep : Renaming id := ⟨Function.injective_id, fun _ _ => rfl, fun _ _ => rfl⟩

end Renaming

-- Labels of inline subroutines end in an angle bracket, and what a copy adds to them holds none.
def upToTip (chars : List Char) : List Char := chars.rdropWhile (· ≠ '>')

def pastTip (chars : List Char) : List Char := chars.rtakeWhile (· ≠ '>')

def Tipped (chars : List Char) : Prop := chars = [] ∨ ∃ before, chars = before ++ ['>']

variable {chars early late : List Char} {n : Nat}

theorem upToTip_append_pastTip (chars : List Char) : upToTip chars ++ pastTip chars = chars :=
  List.rdropWhile_append_rtakeWhile

theorem upToTip_tipped (chars : List Char) : Tipped (upToTip chars) := by
  rcases List.eq_nil_or_concat' (upToTip chars) with none | ⟨before, last, split⟩
  · exact .inl none
  · have some : upToTip chars ≠ [] := by simp [split]
    have stop := List.rdropWhile_last_not (fun c => decide (c ≠ '>')) chars some
    have final : (upToTip chars).getLast some = last := by simp [split]
    have tip : last = '>' := by
      have stop : ¬ decide (last ≠ '>') = true := final ▸ stop
      simpa using stop
    exact .inr ⟨before, tip ▸ split⟩

theorem pastTip_untipped (chars : List Char) : '>' ∉ pastTip chars := by
  intro member
  have kept := List.mem_rtakeWhile_imp member
  simp at kept

-- There is one way to part a name.
theorem upToTip_eq (tipped : Tipped early) (untipped : '>' ∉ late) : upToTip (early ++ late) = early := by
  induction late using List.reverseRecOn with
  | nil =>
    rw [List.append_nil]
    rcases tipped with rfl | ⟨before, rfl⟩
    · rfl
    · exact List.rdropWhile_concat_neg _ _ _ (by simp)
  | append_singleton late c ih =>
    have other : c ≠ '>' := by
      rintro rfl
      simp at untipped
    rw [← List.append_assoc, upToTip, List.rdropWhile_concat_pos _ _ _ (by simpa using other)]
    exact ih (fun member => untipped (List.mem_append_left _ member))

theorem parts_unique {early' late' : List Char} (tipped : Tipped early) (untipped : '>' ∉ late)
    (tipped' : Tipped early') (untipped' : '>' ∉ late') (same : early ++ late = early' ++ late') :
    early = early' ∧ late = late' := by
  have fronts := upToTip_eq tipped untipped
  rw [same, upToTip_eq tipped' untipped'] at fronts
  subst fronts
  exact ⟨rfl, List.append_cancel_left same⟩

-- The names that may be moved: those with a blank and a final angle bracket.
def Closing (x : String) : Prop := ¬ Plain x ∧ ∃ before, x.toList = before ++ ['>']

def renameBy (π : Equiv.Perm String) (x : String) : String :=
  String.ofList ((π (String.ofList (upToTip x.toList))).toList ++ pastTip x.toList)

variable {π : Equiv.Perm String}

theorem renameBy_of_parts (π : Equiv.Perm String) (tipped : Tipped early) (untipped : '>' ∉ late) :
    renameBy π (String.ofList (early ++ late)) = String.ofList ((π (String.ofList early)).toList ++ late) := by
  have fronts := upToTip_eq tipped untipped
  have whole := upToTip_append_pastTip (early ++ late)
  rw [fronts] at whole
  simp only [renameBy, String.toList_ofList, fronts, List.append_cancel_left whole]

theorem moved {P : String → Prop} (fixes : ∀ x, ¬ P x → π x = x) {x : String} (held : P x) : P (π x) := by
  by_contra other
  have same := π.injective (fixes (π x) other)
  rw [same] at other
  exact other held

theorem perm_tipped (fixes : ∀ x, ¬ Closing x → π x = x) (tipped : Tipped chars) :
    Tipped (π (String.ofList chars)).toList := by
  by_cases closing : Closing (String.ofList chars)
  · exact .inr (moved fixes closing).2
  · rw [fixes _ closing]
    simpa using tipped

theorem not_mem_digits {c : Char} (n : Nat) (other : c.isDigit = false) : c ∉ Nat.toDigits 10 n := by
  intro member
  have digit := Nat.isDigit_of_mem_toDigits (by decide) (by decide) member
  rw [other] at digit
  cases digit

theorem renaming_renameBy (fixes : ∀ x, ¬ Closing x → π x = x) : Renaming (renameBy π) where
  injective x y same := by
    have chars := String.ofList_injective same
    obtain ⟨fronts, tails⟩ := parts_unique (perm_tipped fixes (upToTip_tipped _)) (pastTip_untipped _)
      (perm_tipped fixes (upToTip_tipped _)) (pastTip_untipped _) chars
    have equal := String.ofList_injective (π.injective (String.toList_inj.mp fronts))
    apply String.toList_inj.mp
    rw [← upToTip_append_pastTip x.toList, ← upToTip_append_pastTip y.toList, equal, tails]
  plain x plain := by
    have still : ¬ Closing (String.ofList (upToTip x.toList)) := by
      intro closing
      apply closing.1
      intro c member
      apply plain c
      rw [← upToTip_append_pastTip x.toList]
      exact List.mem_append_left _ (by simpa using member)
    simp only [renameBy, fixes _ still, String.toList_ofList, upToTip_append_pastTip, String.ofList_toList]
  copy x n := by
    have untipped : '>' ∉ pastTip x.toList ++ '#' :: (Nat.repr n).toList := by
      simp [pastTip_untipped, not_mem_digits n]
    have parts : s!"{x}#{n}" = String.ofList (upToTip x.toList ++ (pastTip x.toList ++ '#' :: (Nat.repr n).toList)) := by
      apply String.toList_inj.mp
      rw [copy_toList, String.toList_ofList, ← List.append_assoc, upToTip_append_pastTip]
    rw [parts, renameBy_of_parts π (upToTip_tipped _) untipped]
    apply String.toList_inj.mp
    rw [copy_toList, String.toList_ofList, renameBy, String.toList_ofList, List.append_assoc]

-- Each pair costs one exchange, which leaves the earlier pairs alone.
theorem exists_perm {P : String → Prop} (pairs : List (String × String)) (within : ∀ p ∈ pairs, P p.1 ∧ P p.2)
    (firsts : (pairs.map (·.1)).Nodup) (seconds : (pairs.map (·.2)).Nodup) :
    ∃ π : Equiv.Perm String, (∀ x, ¬ P x → π x = x) ∧ ∀ p ∈ pairs, π p.1 = p.2 := by
  induction pairs with
  | nil => exact ⟨1, fun _ _ => rfl, by simp⟩
  | cons p rest ih =>
    obtain ⟨newFirst, firsts⟩ := List.nodup_cons.mp firsts
    obtain ⟨newSecond, seconds⟩ := List.nodup_cons.mp seconds
    obtain ⟨π, fixes, maps⟩ := ih (fun q member => within q (List.mem_cons_of_mem _ member)) firsts seconds
    obtain ⟨first, second⟩ := within p List.mem_cons_self
    refine ⟨Equiv.swap (π p.1) p.2 * π, ?_, ?_⟩
    · intro x other
      have left : x ≠ π p.1 := fun same => other (same ▸ moved fixes first)
      have right : x ≠ p.2 := fun same => other (same ▸ second)
      rw [Equiv.Perm.mul_apply, fixes x other, Equiv.swap_apply_of_ne_of_ne left right]
    · intro q member
      rcases List.mem_cons.mp member with rfl | earlier
      · rw [Equiv.Perm.mul_apply, Equiv.swap_apply_left]
      · have left : q.2 ≠ π p.1 := by
          rw [← maps q earlier]
          intro same
          exact newFirst (List.mem_map.mpr ⟨q, earlier, π.injective same⟩)
        have right : q.2 ≠ p.2 := fun same => newSecond (List.mem_map.mpr ⟨q, earlier, same⟩)
        rw [Equiv.Perm.mul_apply, maps q earlier, Equiv.swap_apply_of_ne_of_ne left right]

-- Names that do not start like one of those that may be moved stay as they are.
theorem exists_renaming {P : String → Prop} (movable : ∀ x, P x → Closing x) (pairs : List (String × String))
    (within : ∀ p ∈ pairs, P p.1 ∧ P p.2) (firsts : (pairs.map (·.1)).Nodup) (seconds : (pairs.map (·.2)).Nodup) :
    ∃ σ, Renaming σ ∧ (∀ p ∈ pairs, σ p.1 = p.2) ∧ ∀ x, (∀ y, P y → ¬ y.toList <+: x.toList) → σ x = x := by
  obtain ⟨π, fixes, maps⟩ := exists_perm pairs within firsts seconds
  refine ⟨renameBy π, renaming_renameBy fun x other => fixes x (mt (movable x) other), ?_, ?_⟩
  · intro p member
    have untipped : '>' ∉ ([] : List Char) := by simp
    have whole := renameBy_of_parts π (.inr (movable _ (within p member).1).2) untipped
    rw [List.append_nil, List.append_nil, String.ofList_toList, String.ofList_toList] at whole
    rw [whole, maps p member]
  · intro x apart
    have front : upToTip x.toList <+: x.toList := ⟨_, upToTip_append_pastTip x.toList⟩
    have still : ¬ P (String.ofList (upToTip x.toList)) := by
      intro held
      apply apart _ held
      rwa [String.toList_ofList]
    simp only [renameBy, fixes _ still, String.toList_ofList, upToTip_append_pastTip, String.ofList_toList]

end RuneAsm
