import Mathlib
import RuneAsm.Text.Utf8

namespace RuneAsm.Text.Utf8

-- What is written as UTF-8 is read back. The decoder goes through the bytes of a character one by one: the first starts
-- a sequence that knows how many are to come, and none of the others falls outside the bounds that the sequence sets
-- for it.

variable {b : UInt8} {n position : Nat} {out : Array Char} {s : Sequence}

theorem toNat_ofNat_of_lt (small : n < 0x100) : (UInt8.ofNat n).toNat = n := by
  rw [UInt8.toNat_ofNat', Nat.mod_eq_of_lt small]

theorem step_single (small : b.toNat < 0x80) :
    Decoder.step ⟨position, none, out⟩ b = .ok ⟨position + 1, none, out.push (Char.ofNat b.toNat)⟩ := by
  have below : b < 0x80 := UInt8.lt_iff_toNat_lt.mpr small
  simp [Decoder.step, below]

theorem step_start (large : 0x80 ≤ b.toNat) (starts : Sequence.start? b = some s) :
    Decoder.step ⟨position, none, out⟩ b = .ok ⟨position + 1, some s, out⟩ := by
  have above : ¬ b < 0x80 := by
    rw [UInt8.lt_iff_toNat_lt]
    exact Nat.not_lt.mpr large
  simp [Decoder.step, above, starts]

theorem step_more (bounds : s.low.toNat ≤ b.toNat ∧ b.toNat ≤ s.high.toNat) {m : Nat} (more : s.missing = m + 2) :
    Decoder.step ⟨position, some s, out⟩ b = .ok ⟨position + 1,
      some ⟨s.missing - 1, 0x80, 0xBF, 64 * s.value + (b.toNat - 0x80), s.seen ++ [b]⟩, out⟩ := by
  have within : s.low ≤ b ∧ b ≤ s.high := by rwa [UInt8.le_iff_toNat_le, UInt8.le_iff_toNat_le]
  have still : ¬ s.missing ≤ 1 := by omega
  simp [Decoder.step, within, still]

theorem step_last (bounds : s.low.toNat ≤ b.toNat ∧ b.toNat ≤ s.high.toNat) (last : s.missing = 1) :
    Decoder.step ⟨position, some s, out⟩ b =
      .ok ⟨position + 1, none, out.push (Char.ofNat (64 * s.value + (b.toNat - 0x80)))⟩ := by
  have within : s.low ≤ b ∧ b ≤ s.high := by rwa [UInt8.le_iff_toNat_le, UInt8.le_iff_toNat_le]
  simp [Decoder.step, within, last]

theorem start?_two (low : 0xC2 ≤ n) (high : n < 0xE0) :
    Sequence.start? (UInt8.ofNat n) = some ⟨1, 0x80, 0xBF, n - 0xC0, [UInt8.ofNat n]⟩ := by
  have value := toNat_ofNat_of_lt (n := n) (by omega)
  simp only [Sequence.start?, UInt8.lt_iff_toNat_lt, value, UInt8.reduceToNat]
  rw [if_neg (by omega), if_pos high]

theorem start?_three (low : 0xE0 ≤ n) (high : n < 0xF0) :
    Sequence.start? (UInt8.ofNat n) = some
      ⟨2, if n = 0xE0 then 0xA0 else 0x80, if n = 0xED then 0x9F else 0xBF, n - 0xE0, [UInt8.ofNat n]⟩ := by
  have value := toNat_ofNat_of_lt (n := n) (by omega)
  simp only [Sequence.start?, UInt8.lt_iff_toNat_lt, ← UInt8.toNat_inj, value, UInt8.reduceToNat]
  rw [if_neg (by omega), if_neg (by omega), if_pos high]

theorem start?_four (low : 0xF0 ≤ n) (high : n < 0xF5) :
    Sequence.start? (UInt8.ofNat n) = some
      ⟨3, if n = 0xF0 then 0x90 else 0x80, if n = 0xF4 then 0x8F else 0xBF, n - 0xF0, [UInt8.ofNat n]⟩ := by
  have value := toNat_ofNat_of_lt (n := n) (by omega)
  simp only [Sequence.start?, UInt8.lt_iff_toNat_lt, ← UInt8.toNat_inj, value, UInt8.reduceToNat]
  rw [if_neg (by omega), if_neg (by omega), if_neg (by omega), if_pos high]

theorem foldlM_cons_ok {d next : Decoder} (stepped : d.step b = .ok next) (rest : List UInt8) :
    (b :: rest).foldlM Decoder.step d = rest.foldlM Decoder.step next := by
  rw [List.foldlM_cons, stepped]
  rfl

-- Neither an overlong form nor a surrogate is ever written, and these are what the tighter bounds keep out.
theorem foldlM_encodeChar (c : Char) (position : Nat) (out : Array Char) :
    ∃ later, (String.utf8EncodeChar c).foldlM Decoder.step ⟨position, none, out⟩ = .ok ⟨later, none, out.push c⟩ := by
  have valid : c.toNat < 0xD800 ∨ 0xDFFF < c.toNat ∧ c.toNat < 0x110000 := c.valid
  have same {m : Nat} (value : m = c.toNat) : Char.ofNat m = c := by rw [value, Char.ofNat_toNat]
  have tail (m : Nat) : (UInt8.ofNat (m % 64 + 128)).toNat = m % 64 + 128 := toNat_ofNat_of_lt (by omega)
  unfold String.utf8EncodeChar
  dsimp only
  rw [show c.val.toNat = c.toNat from rfl]
  split_ifs with one two three
  · have value := toNat_ofNat_of_lt (n := c.toNat) (by omega)
    refine ⟨position + 1, ?_⟩
    rw [foldlM_cons_ok (step_single (by omega)), same value]
    rfl
  · have value := toNat_ofNat_of_lt (n := c.toNat / 64 % 32 + 192) (by omega)
    refine ⟨position + 1 + 1, ?_⟩
    rw [foldlM_cons_ok (step_start (by omega) (start?_two (by omega) (by omega))),
      foldlM_cons_ok (step_last (by simp only [tail, UInt8.reduceToNat]; omega) rfl),
      same (by simp only [tail]; omega)]
    rfl
  · have value := toNat_ofNat_of_lt (n := c.toNat / 4096 % 16 + 224) (by omega)
    refine ⟨position + 1 + 1 + 1, ?_⟩
    rw [foldlM_cons_ok (step_start (by omega) (start?_three (by omega) (by omega))),
      foldlM_cons_ok (step_more
        (by simp only [tail, apply_ite UInt8.toNat, UInt8.reduceToNat]; split_ifs <;> omega) rfl),
      foldlM_cons_ok (step_last (by simp only [tail, UInt8.reduceToNat]; omega) rfl),
      same (by simp only [tail]; omega)]
    rfl
  · have value := toNat_ofNat_of_lt (n := c.toNat / 262144 % 8 + 240) (by omega)
    refine ⟨position + 1 + 1 + 1 + 1, ?_⟩
    rw [foldlM_cons_ok (step_start (by omega) (start?_four (by omega) (by omega))),
      foldlM_cons_ok (step_more
        (by simp only [tail, apply_ite UInt8.toNat, UInt8.reduceToNat]; split_ifs <;> omega) rfl),
      foldlM_cons_ok (step_more (by simp only [tail, UInt8.reduceToNat]; omega) rfl),
      foldlM_cons_ok (step_last (by simp only [tail, UInt8.reduceToNat]; omega) rfl),
      same (by simp only [tail]; omega)]
    rfl

theorem decode_encode (text : List Char) : decode (encode text) = .ok text := by
  have read (position : Nat) (out : Array Char) :
      ∃ later, (encode text).foldlM Decoder.step ⟨position, none, out⟩ = .ok ⟨later, none, out ++ text.toArray⟩ := by
    induction text generalizing position out with
    | nil => exact ⟨position, by simp [encode]; rfl⟩
    | cons c rest ih =>
      obtain ⟨middle, first⟩ := foldlM_encodeChar c position out
      obtain ⟨later, others⟩ := ih middle (out.push c)
      refine ⟨later, ?_⟩
      have parts : encode (c :: rest) = String.utf8EncodeChar c ++ encode rest := by simp [encode]
      rw [parts, List.foldlM_append, first]
      exact others.trans (by simp)
  obtain ⟨later, whole⟩ := read 0 #[]
  unfold decode
  rw [whole]
  simp [bind, Except.bind]

end RuneAsm.Text.Utf8
