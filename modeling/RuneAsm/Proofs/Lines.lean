import Mathlib
import RuneAsm.Text.Utf8

namespace RuneAsm.Text

-- Laws of lines. The lines of a text are its pieces between newlines, so lines put together with newlines are read back
-- one by one, and what stands before a place says on which line the place is and what that line begins with.

variable {text before after head : List Char} {tail pieces : List (List Char)}

theorem lines_eq_splitOn (text : List Char) : lines text = text.splitOn '\n' := by
  induction text with
  | nil => rfl
  | cons c rest ih =>
    rw [List.splitOn_cons_eq_if_modifyHead, ← ih]
    by_cases newline : c = '\n'
    · subst newline
      rfl
    · cases pieces : lines rest with
      | nil => exact absurd (ih.symm.trans pieces) (List.splitOn_ne_nil _ _)
      | cons first others =>
        unfold lines at pieces ⊢
        rw [List.foldr_cons, pieces, if_neg newline, if_neg (by simpa using newline)]
        rfl

theorem lines_cons (c : Char) (rest : List Char) :
    lines (c :: rest) = if c = '\n' then [] :: lines rest else (lines rest).modifyHead (c :: ·) := by
  simp only [lines_eq_splitOn, List.splitOn_cons_eq_if_modifyHead, beq_iff_eq]

theorem lines_ne_nil (text : List Char) : lines text ≠ [] := by
  rw [lines_eq_splitOn]
  exact List.splitOn_ne_nil _ _

-- Nothing is lost, merged or split when lines without newlines are put together.
theorem lines_intercalate (unbroken : ∀ line ∈ pieces, '\n' ∉ line) (nonempty : pieces ≠ []) :
    lines (['\n'].intercalate pieces) = pieces := by
  rw [lines_eq_splitOn]
  exact List.splitOn_intercalate '\n' unbroken nonempty

theorem lines_ended (unbroken : ∀ line ∈ pieces, '\n' ∉ line) :
    lines (pieces.flatMap (· ++ ['\n'])) = pieces ++ [[]] := by
  induction pieces with
  | nil => rfl
  | cons first rest ih =>
    have later := ih fun piece member => unbroken piece (List.mem_cons_of_mem _ member)
    rw [lines_eq_splitOn] at later ⊢
    rw [List.flatMap_cons, List.append_assoc, List.singleton_append,
      List.splitOn_append_cons_self_of_not_mem (unbroken first List.mem_cons_self), later, List.cons_append]

-- The line of a place begins with what stands between the last newline and the place.
theorem drop_lines (before : List Char) (rest : lines after = head :: tail) :
    (lines (before ++ after)).drop (before.count '\n') = (before.rtakeWhile (· ≠ '\n') ++ head) :: tail := by
  induction before using List.reverseRecOn generalizing after head tail with
  | nil => exact rest
  | append_singleton before c ih =>
    rw [List.append_assoc, List.singleton_append, List.rtakeWhile_concat, List.count_append]
    by_cases newline : c = '\n'
    · have later : lines (c :: after) = [] :: head :: tail := by rw [lines_cons, if_pos newline, rest]
      have dropped := congrArg (List.drop 1) (ih later)
      simpa [newline, List.drop_drop] using dropped
    · have later : lines (c :: after) = (c :: head) :: tail := by rw [lines_cons, if_neg newline, rest]; rfl
      simpa [newline] using ih later

-- Any place but the end of a line shows its character on its line.
theorem lines_at (before after : List Char) {c : Char} (inside : c ≠ '\n') :
    ∃ shown, (lines (before ++ c :: after))[before.count '\n']? = some shown ∧
      shown[(before.rtakeWhile (· ≠ '\n')).length]? = some c := by
  obtain ⟨head, tail, rest⟩ := List.exists_cons_of_ne_nil (lines_ne_nil after)
  have here : lines (c :: after) = (c :: head) :: tail := by rw [lines_cons, if_neg inside, rest]; rfl
  refine ⟨before.rtakeWhile (· ≠ '\n') ++ c :: head, ?_, ?_⟩
  · rw [← List.head?_drop, drop_lines before here, List.head?_cons]
  · rw [List.getElem?_append_right le_rfl, Nat.sub_self, List.getElem?_cons_zero]

end RuneAsm.Text
