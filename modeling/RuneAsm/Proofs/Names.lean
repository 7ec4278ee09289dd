import Mathlib
import RuneAsm.Expander
import RuneAsm.Proofs.LabelTable

namespace RuneAsm

-- Names of labels. A name that comes from a word holds no blank; the label of an inline subroutine holds one, and so
-- does every copy of it. Copies of one label under different numbers are different, and the number that an expansion
-- picks gives a name that is not in the table.

variable {label : String} {symbols : SymbolTable} {n m tries : Nat}

def Plain (name : String) : Prop := ∀ c ∈ name.toList, isBlank c = false

theorem plain_ofList {chars : List Char} : Plain (String.ofList chars) ↔ ∀ c ∈ chars, isBlank c = false := by
  simp [Plain]

theorem plain_qualify {scope : Scope} {child qualified : String}
    (parents : ∀ parent, scope.parent = some parent → Plain parent.1) (plain : Plain child)
    (found : scope.qualify child = some qualified) : Plain qualified := by
  unfold Scope.qualify at found
  obtain ⟨parent, entered, rfl⟩ := Option.map_eq_some_iff.mp found
  intro c member
  have split : c ∈ parent.1.toList ∨ c = '/' ∨ c ∈ child.toList := by
    simpa [toString] using member
  rcases split with left | rfl | right
  · exact parents parent entered c left
  · rfl
  · exact plain c right

theorem anonymousLabel_not_plain (location : Location) : ¬ Plain (Token.anonymousLabel location) := by
  intro plain
  have blank := plain ' ' (by simp [Token.anonymousLabel, toString])
  exact absurd blank (by decide)

-- The entries that do not count as named have names that no word has.
def SymbolTable.Veiled (t : SymbolTable) : Prop := ∀ s ∈ t.entries, s.anonymous = true → ¬ Plain s.name

theorem copy_toList : (s!"{label}#{n}").toList = label.toList ++ '#' :: (Nat.repr n).toList := by
  simp [toString]

theorem copy_not_plain (spaced : ¬ Plain label) : ¬ Plain s!"{label}#{n}" := by
  intro plain
  apply spaced
  intro c member
  apply plain c
  rw [copy_toList]
  exact List.mem_append_left _ member

theorem copy_number (same : s!"{label}#{n}" = s!"{label}#{m}") : n = m := by
  have lists := congrArg String.toList same
  rw [copy_toList, copy_toList, List.append_cancel_left_eq] at lists
  exact Nat.repr_injective (String.toList_inj.mp (List.cons.inj lists).2)

namespace Expander

-- Everything below the number found is taken, and it is free itself unless the tries ran out.
theorem freeNumber_spec (symbols : SymbolTable) (label : String) (tries n : Nat) :
    (∀ k, n ≤ k → k < freeNumber symbols label tries n → s!"{label}#{k}" ∈ symbols.names) ∧
      (s!"{label}#{freeNumber symbols label tries n}" ∉ symbols.names ∨
        freeNumber symbols label tries n = n + tries) := by
  induction tries generalizing n with
  | zero => exact ⟨fun k above below => absurd below (Nat.not_lt.mpr above), .inr rfl⟩
  | succ tries ih =>
    unfold freeNumber
    split
    · rename_i taken
      obtain ⟨below, free⟩ := ih (n + 1)
      refine ⟨?_, ?_⟩
      · intro k above smaller
        rcases Nat.eq_or_lt_of_le above with rfl | larger
        · exact SymbolTable.contains_iff.mp taken
        · exact below k larger smaller
      · rcases free with new | last
        · exact .inl new
        · exact .inr (by omega)
    · rename_i free
      refine ⟨fun k above below => absurd below (Nat.not_lt.mpr above), .inl ?_⟩
      rwa [SymbolTable.contains_iff] at free

-- More numbers are tried than the table has names, so they cannot all be taken.
theorem freeNumber_new (symbols : SymbolTable) (label : String) (n : Nat) :
    s!"{label}#{freeNumber symbols label symbols.size n}" ∉ symbols.names := by
  obtain ⟨below, free⟩ := freeNumber_spec symbols label symbols.size n
  rcases free with new | last
  · exact new
  · intro taken
    let tried := (List.range' n (symbols.size + 1)).map (fun k => s!"{label}#{k}")
    have distinct : tried.Nodup := List.Nodup.map (fun _ _ same => copy_number same) (List.nodup_range' 1)
    have all : tried ⊆ symbols.names := by
      intro name member
      obtain ⟨k, range, rfl⟩ := List.mem_map.mp member
      obtain ⟨above, within⟩ := List.mem_range'_1.mp range
      rcases Nat.lt_or_ge k (n + symbols.size) with smaller | larger
      · exact below k above (by omega)
      · have final : k = freeNumber symbols label symbols.size n := by omega
        rw [final]
        exact taken
    have count := (distinct.subperm all).length_le
    simp only [tried, List.length_map, List.length_range', SymbolTable.length_names] at count
    omega

end Expander

end RuneAsm
