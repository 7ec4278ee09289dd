import Mathlib
import RuneAsm.Image
import RuneAsm.Proofs.Alike

namespace RuneAsm

open Run

-- What stands in an image. Writing goes forward only, so a byte that was written stays: in the end each offset holds
-- the byte of the record that was written there or, where no record was, what the sink held before, and zero past its
-- end.

namespace Sink

variable {s : Sink} {b : UInt8} {data : List UInt8} {i k : Nat}

-- What stands at an offset; zero past the end.
def byteAt (s : Sink) (i : Nat) : UInt8 := s.content.getD i 0

theorem getElem?_of_byteAt (inside : i < s.content.size) : s.content[i]? = some (s.byteAt i) := by
  simp [byteAt, inside]

theorem cursor_put (s : Sink) (b : UInt8) : (s.put b).cursor = s.cursor + 1 := by
  unfold put
  split <;> rfl

theorem size_put (s : Sink) (b : UInt8) : (s.put b).content.size = max s.content.size (s.cursor + 1) := by
  unfold put
  split
  · rw [Array.size_setIfInBounds]
    omega
  · simp only [Array.size_push, Array.size_append, Array.size_replicate]
    omega

theorem byteAt_put (s : Sink) (b : UInt8) (i : Nat) : (s.put b).byteAt i = if i = s.cursor then b else s.byteAt i := by
  unfold put byteAt
  split
  · rename_i inside
    by_cases here : i = s.cursor
    · subst here
      simp [inside]
    · simp [here, Array.getElem?_setIfInBounds_ne (Ne.symm here)]
  · rename_i past
    have filled : (s.content ++ Array.replicate (s.cursor - s.content.size) 0).size = s.cursor := by
      rw [Array.size_append, Array.size_replicate]
      omega
    rw [Array.getD_eq_getD_getElem?, Array.getD_eq_getD_getElem?, Array.getElem?_push, filled]
    split
    · rfl
    · rw [Array.getElem?_append]
      split
      · rfl
      · rename_i beyond
        rw [Array.getElem?_eq_none (Nat.le_of_not_lt beyond), Array.getElem?_replicate]
        split <;> rfl

theorem write_cons (s : Sink) (b : UInt8) (rest : List UInt8) : s.write (b :: rest) = (s.put b).write rest := rfl

theorem cursor_write (s : Sink) (data : List UInt8) : (s.write data).cursor = s.cursor + data.length := by
  induction data generalizing s with
  | nil => rfl
  | cons b rest ih =>
    rw [write_cons, ih, cursor_put, List.length_cons]
    omega

theorem size_write (s : Sink) (data : List UInt8) (some : data ≠ []) :
    (s.write data).content.size = max s.content.size (s.cursor + data.length) := by
  induction data generalizing s with
  | nil => exact absurd rfl some
  | cons b rest ih =>
    rw [write_cons]
    cases rest with
    | nil => exact size_put s b
    | cons c rest =>
      rw [ih (s.put b) (List.cons_ne_nil c rest), size_put, cursor_put]
      simp only [List.length_cons]
      omega

theorem byteAt_write_outside (s : Sink) (outside : i < s.cursor ∨ s.cursor + data.length ≤ i) :
    (s.write data).byteAt i = s.byteAt i := by
  induction data generalizing s with
  | nil => rfl
  | cons b rest ih =>
    rw [List.length_cons] at outside
    have later : i < (s.put b).cursor ∨ (s.put b).cursor + rest.length ≤ i := by
      rw [cursor_put]
      omega
    rw [write_cons, ih (s.put b) later, byteAt_put, if_neg (by omega)]

theorem byteAt_write (s : Sink) (given : data[k]? = some b) : (s.write data).byteAt (s.cursor + k) = b := by
  induction data generalizing s k with
  | nil => simp at given
  | cons c rest ih =>
    rw [write_cons]
    cases k with
    | zero =>
      have first : c = b := by simpa using given
      have behind : s.cursor < (s.put c).cursor ∨ (s.put c).cursor + rest.length ≤ s.cursor := by
        rw [cursor_put]
        omega
      rw [Nat.add_zero, byteAt_write_outside (s.put c) behind, byteAt_put, if_pos rfl, first]
    | succ k =>
      have there := ih (s.put c) (k := k) (by simpa using given)
      rw [cursor_put] at there
      rw [← there]
      congr 1
      omega

-- At the end of the content writing is appending.
theorem write_at_end (s : Sink) (atEnd : s.cursor = s.content.size) (data : List UInt8) :
    (s.write data).content.toList = s.content.toList ++ data := by
  induction data generalizing s with
  | nil => simp [write]
  | cons b rest ih =>
    have put : s.put b = ⟨s.content.push b, s.cursor + 1⟩ := by
      unfold Sink.put
      rw [if_neg (by omega), atEnd, Nat.sub_self]
      simp
    rw [write_cons, put, ih _ (by simp [atEnd])]
    simp

end Sink

-- The record writes the byte at the offset, in an image that starts at the base.
def Record.Puts (base : Int) (r : Record) (i : Nat) (byte : UInt8) : Prop :=
  ∃ (data : List UInt8) (k : Nat), r.data = .ok data ∧ data[k]? = some byte ∧ (i : Int) = r.position - base + k

namespace Emission

variable {base : Int} {e next last : Emission} {r : Record} {records : List Record} {i : Nat} {byte : UInt8}

theorem step_cases (stepped : step base e r = .ok next) : ∃ data, r.data = .ok data ∧ (data = [] ∧ next = e ∨
    data ≠ [] ∧ ∃ offset : Nat, r.position - base = offset ∧ e.sink.cursor ≤ offset ∧
      next = ⟨(e.sink.seek offset).write data, e.written + data.length⟩) := by
  unfold step at stepped
  cases known : r.data with
  | error f =>
    rw [known] at stepped
    cases stepped
  | ok data =>
    rw [known] at stepped
    refine ⟨data, rfl, ?_⟩
    cases data with
    | nil =>
      cases stepped
      exact .inl ⟨rfl, rfl⟩
    | cons byte rest =>
      dsimp only at stepped
      split at stepped
      · cases stepped
      · split at stepped
        · cases stepped
        · cases stepped
          exact .inr ⟨List.cons_ne_nil byte rest, (r.position - base).toNat, by omega, by omega, rfl⟩

-- Nothing is written below the cursor any more, and each record that comes is written in its place.
structure Writes (base : Int) (records : List Record) (e last : Emission) : Prop where
  offset : ∀ r ∈ records, ∀ data, r.data = .ok data → data ≠ [] → ∃ i : Nat, r.position - base = i
  cursor : e.sink.cursor ≤ last.sink.cursor
  size : e.sink.content.size ≤ last.sink.content.size
  below : ∀ i < e.sink.cursor, last.sink.byteAt i = e.sink.byteAt i
  puts : ∀ r ∈ records, ∀ i byte, r.Puts base i byte → i < last.sink.content.size ∧ last.sink.byteAt i = byte
  rest : ∀ i, (∀ r ∈ records, ∀ byte, ¬ r.Puts base i byte) → last.sink.byteAt i = e.sink.byteAt i

theorem Writes.getElem? (writes : Writes base records e last) (member : r ∈ records) (puts : r.Puts base i byte) :
    last.sink.content[i]? = some byte := by
  obtain ⟨inside, there⟩ := writes.puts r member i byte puts
  rw [Sink.getElem?_of_byteAt inside, there]

theorem step_writes (stepped : step base e r = .ok next) :
    Writes base [r] e next ∧ ∀ i byte, r.Puts base i byte → i < next.sink.cursor := by
  obtain ⟨data, known, ⟨rfl, rfl⟩ | ⟨nonempty, offset, place, ahead, rfl⟩⟩ := step_cases stepped
  · have idle : ∀ i byte, ¬ r.Puts base i byte := by
      rintro i byte ⟨data, k, again, given, _⟩
      rw [known] at again
      cases again
      simp at given
    refine ⟨⟨?_, Nat.le_refl _, Nat.le_refl _, fun _ _ => rfl, ?_, fun _ _ => rfl⟩,
      fun i byte put => absurd put (idle i byte)⟩
    · intro r' member data again nonempty
      rw [List.mem_singleton.mp member, known] at again
      exact absurd (Except.ok.inj again).symm nonempty
    · intro r' member i byte put
      exact absurd (List.mem_singleton.mp member ▸ put) (idle i byte)
  · have cursor := Sink.cursor_write (e.sink.seek offset) data
    have size := Sink.size_write (e.sink.seek offset) data nonempty
    have seek : (e.sink.seek offset).cursor = offset ∧ (e.sink.seek offset).content = e.sink.content := ⟨rfl, rfl⟩
    rw [seek.1] at cursor size
    rw [seek.2] at size
    have put : ∀ i byte, r.Puts base i byte → ∃ k, data[k]? = some byte ∧ i = offset + k ∧ k < data.length := by
      rintro i byte ⟨data', k, again, given, position⟩
      rw [known] at again
      cases again
      exact ⟨k, given, by omega, (List.getElem?_eq_some_iff.mp given).1⟩
    refine ⟨⟨?_, ?_, ?_, ?_, ?_, ?_⟩, ?_⟩
    · intro r' member _ _ _
      exact ⟨offset, List.mem_singleton.mp member ▸ place⟩
    · dsimp only
      omega
    · dsimp only
      omega
    · intro i before
      exact Sink.byteAt_write_outside (e.sink.seek offset) (.inl (by rw [seek.1]; omega))
    · intro r' member i byte puts
      obtain ⟨k, given, rfl, inside⟩ := put i byte (List.mem_singleton.mp member ▸ puts)
      exact ⟨by dsimp only; omega, Sink.byteAt_write (e.sink.seek offset) given⟩
    · intro i free
      apply Sink.byteAt_write_outside (e.sink.seek offset)
      rw [seek.1]
      by_contra inside
      have within : i - offset < data.length := by omega
      exact free r (List.mem_singleton.mpr rfl) data[i - offset]
        ⟨data, i - offset, known, List.getElem?_eq_getElem within, by omega⟩
    · intro i byte puts
      obtain ⟨k, _, rfl, inside⟩ := put i byte puts
      dsimp only
      omega

theorem each_writes (ran : Run.each (step base) e records = .ok last) : Writes base records e last := by
  induction records generalizing e with
  | nil =>
    cases ran
    exact ⟨by simp, Nat.le_refl _, Nat.le_refl _, fun _ _ => rfl, by simp, fun _ _ => rfl⟩
  | cons r records ih =>
    rw [each_cons] at ran
    obtain ⟨next, stepped, later⟩ := andThen_eq_ok ran
    obtain ⟨first, covered⟩ := step_writes stepped
    have after := ih later
    refine ⟨?_, Nat.le_trans first.cursor after.cursor, Nat.le_trans first.size after.size, ?_, ?_, ?_⟩
    · intro r' member
      rcases List.mem_cons.mp member with rfl | inRest
      · exact first.offset r' (List.mem_singleton.mpr rfl)
      · exact after.offset r' inRest
    · intro i before
      rw [after.below i (Nat.lt_of_lt_of_le before first.cursor), first.below i before]
    · intro r' member i byte puts
      rcases List.mem_cons.mp member with rfl | inRest
      · obtain ⟨inside, there⟩ := first.puts r' (List.mem_singleton.mpr rfl) i byte puts
        exact ⟨Nat.lt_of_lt_of_le inside after.size, (after.below i (covered i byte puts)).trans there⟩
      · exact after.puts r' inRest i byte puts
    · intro i free
      rw [after.rest i (fun r' member => free r' (List.mem_cons_of_mem r member))]
      apply first.rest i
      intro r' member
      exact free r' (List.mem_singleton.mp member ▸ List.mem_cons_self)

end Emission

-- The records take up the same offsets, each in the image of its own base.
structure Record.Beside (base base' : Int) (r r' : Record) : Prop where
  place : r'.position - base' = r.position - base
  length : ∃ data data', r.data = .ok data ∧ r'.data = .ok data' ∧ data'.length = data.length

namespace Emission

variable {base base' : Int} {e e' : Emission} {r r' : Record}

structure Level (e e' : Emission) : Prop where
  cursor : e'.sink.cursor = e.sink.cursor
  size : e'.sink.content.size = e.sink.content.size

theorem step_together (level : Level e e') (beside : r.Beside base base' r') :
    Together Level (step base e r) (step base' e' r') := by
  obtain ⟨data, data', known, known', length⟩ := beside.length
  unfold step
  rw [known, known']
  cases data with
  | nil =>
    rw [List.eq_nil_of_length_eq_zero length]
    exact level
  | cons byte rest =>
    have nonempty : data' ≠ [] := by
      rintro rfl
      cases length
    obtain ⟨byte', rest', rfl⟩ := List.exists_cons_of_ne_nil nonempty
    dsimp only
    rw [beside.place, level.cursor]
    split
    · trivial
    · split
      · trivial
      · refine ⟨?_, ?_⟩
        · rw [Sink.cursor_write, Sink.cursor_write, length]
          rfl
        · rw [Sink.size_write _ _ nonempty, Sink.size_write _ _ (List.cons_ne_nil byte rest), length]
          exact congrArg (max · _) level.size

theorem each_together {records records' : List Record} (beside : List.Forall₂ (Record.Beside base base') records records')
    (level : Level e e') : Together Level (Run.each (step base) e records) (Run.each (step base') e' records') := by
  induction beside generalizing e e' with
  | nil => exact level
  | cons first _ ih =>
    apply (step_together level first).andThen
    intro next next' after
    exact ih after

end Emission

end RuneAsm
