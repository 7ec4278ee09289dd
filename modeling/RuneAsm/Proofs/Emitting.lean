import Mathlib
import RuneAsm.Proofs.Laying
import RuneAsm.Proofs.Writing

namespace RuneAsm

open Run

-- Which records can be written one after the other, and what the sink then holds. Each record with bytes has to start
-- at or behind the cursor that the one before it left; the first that does not stops the writing, and what was written
-- before it stays as it is.

theorem Operand.length_data {o : Operand} {data : List UInt8} (known : o.data = .ok data) : data.length = o.size := by
  have width : o.size = 1 ∨ o.size = 2 := by
    unfold size
    cases o.mode <;> simp [AddressingMode.width]
  unfold Operand.data at known
  split at known
  · cases known
  · split at known
    · rename_i single
      rw [length_byteOf known, single]
    · rename_i double
      rw [length_shortOf known, width.resolve_left double]

namespace Record

variable {base cursor : Int} {r : Record} {front rest records : List Record}

theorem length_data {data : List UInt8} (known : r.data = .ok data) : data.length = r.size := by
  cases r with
  | bytes position bytes token =>
    cases known
    rfl
  | operand o => exact Operand.length_data known

theorem size_eq_zero_iff {data : List UInt8} (known : r.data = .ok data) : r.size = 0 ↔ data = [] := by
  rw [← length_data known, List.length_eq_zero_iff]

-- The cursor that a record leaves: just past its bytes, or where it was when there are none.
def pass (base cursor : Int) (r : Record) : Int := if r.size = 0 then cursor else r.position - base + r.size

def cursorAfter (base cursor : Int) (records : List Record) : Int := records.foldl (pass base) cursor

-- Only the last record with bytes counts; without one the cursor stays.
theorem cursorAfter_cases (base : Int) (records : List Record) :
    (∀ cursor, cursorAfter base cursor records = cursor) ∨ ∃ last, ∀ cursor, cursorAfter base cursor records = last := by
  induction records with
  | nil => exact .inl fun _ => rfl
  | cons r rest ih =>
    rcases ih with still | ⟨last, moved⟩
    · by_cases none : r.size = 0
      · refine .inl fun cursor => ?_
        have same : pass base cursor r = cursor := if_pos none
        exact (still _).trans same
      · refine .inr ⟨r.position - base + r.size, fun cursor => ?_⟩
        have past : pass base cursor r = r.position - base + r.size := if_neg none
        exact (still _).trans past
    · exact .inr ⟨last, fun cursor => moved _⟩

-- Each record with bytes starts at an offset that is neither negative nor before the cursor it finds.
def Forward (base cursor : Int) (records : List Record) : Prop :=
  ∀ front r back, records = front ++ r :: back → r.size ≠ 0 →
    0 ≤ r.position - base ∧ cursorAfter base cursor front ≤ r.position - base

theorem forward_nil : Forward base cursor [] := by
  intro front r back parts
  simp at parts

theorem forward_cons : Forward base cursor (r :: rest) ↔
    (r.size ≠ 0 → 0 ≤ r.position - base ∧ cursor ≤ r.position - base) ∧ Forward base (pass base cursor r) rest := by
  constructor
  · intro forward
    refine ⟨forward [] r rest rfl, ?_⟩
    intro front other back parts
    exact forward (r :: front) other back (by rw [parts]; rfl)
  · rintro ⟨first, later⟩ front other back parts
    cases front with
    | nil =>
      obtain ⟨rfl, _⟩ := List.cons.inj parts
      exact first
    | cons head front =>
      obtain ⟨rfl, more⟩ := List.cons.inj parts
      exact later front other back more

-- No record reaches back behind the cursor with which the writing began.
theorem Forward.ahead (forward : Forward base cursor records) :
    cursor ≤ cursorAfter base cursor records ∧ ∀ r ∈ records, r.size ≠ 0 → cursor ≤ r.position - base := by
  induction records generalizing cursor with
  | nil => exact ⟨Int.le_refl cursor, by simp⟩
  | cons r rest ih =>
    obtain ⟨first, later⟩ := forward_cons.mp forward
    obtain ⟨reached, others⟩ := ih later
    have moved : cursor ≤ pass base cursor r := by
      unfold pass
      split
      · exact Int.le_refl cursor
      · rename_i some
        have start := (first some).2
        omega
    refine ⟨Int.le_trans moved reached, ?_⟩
    intro other member some
    rcases List.mem_cons.mp member with rfl | inRest
    · exact (first some).2
    · exact Int.le_trans moved (others other inRest some)

theorem Puts.within {i : Nat} {byte : UInt8} (puts : r.Puts base i byte) :
    r.size ≠ 0 ∧ r.position - base ≤ i ∧ (i : Int) < r.position - base + r.size := by
  obtain ⟨data, k, known, given, place⟩ := puts
  have inside := (List.getElem?_eq_some_iff.mp given).1
  rw [length_data known] at inside
  omega

-- So no offset is covered by two of them.
theorem Forward.apart (forward : Forward base cursor records) :
    records.Pairwise fun r other => ∀ i byte byte', r.Puts base i byte → ¬ other.Puts base i byte' := by
  induction records generalizing cursor with
  | nil => exact .nil
  | cons r rest ih =>
    obtain ⟨_, later⟩ := forward_cons.mp forward
    refine .cons ?_ (ih later)
    intro other member i byte byte' puts again
    obtain ⟨some, _, before⟩ := puts.within
    obtain ⟨someToo, behind, _⟩ := again.within
    have start := later.ahead.2 other member someToo
    rw [pass, if_neg some] at start
    omega

end Record

namespace Emission

variable {base : Int} {e last : Emission} {r : Record} {records : List Record}

-- The only two ways in which a record with data is taken.
theorem step_exact (base : Int) (e : Emission) {data : List UInt8} (known : r.data = .ok data) :
    (∃ next, step base e r = .ok next ∧ (r.size ≠ 0 → 0 ≤ r.position - base ∧ e.sink.cursor ≤ r.position - base)) ∨
      r.size ≠ 0 ∧ ¬ (0 ≤ r.position - base ∧ (e.sink.cursor : Int) ≤ r.position - base) ∧
        ∃ fault, step base e r = e.refuse r fault := by
  have empty := Record.size_eq_zero_iff known
  unfold step
  rw [known]
  cases data with
  | nil => exact .inl ⟨e, rfl, fun some => absurd (empty.mpr rfl) some⟩
  | cons byte rest =>
    have some : r.size ≠ 0 := fun none => by simpa using empty.mp none
    dsimp only
    split
    · exact .inr ⟨some, by omega, _, rfl⟩
    · split
      · exact .inr ⟨some, by omega, _, rfl⟩
      · exact .inl ⟨_, rfl, fun _ => by omega⟩

-- What a record that is taken adds to the counter, to the cursor and to the length of the content.
theorem step_moves {next : Emission} (stepped : step base e r = .ok next) :
    next.written = e.written + r.size ∧ (next.sink.cursor : Int) = r.pass base e.sink.cursor ∧
      (next.sink.content.size : Int) = if r.size = 0 then (e.sink.content.size : Int)
        else max (e.sink.content.size : Int) (r.position - base + r.size) := by
  obtain ⟨data, known, ⟨rfl, rfl⟩ | ⟨nonempty, offset, place, _, rfl⟩⟩ := step_cases stepped
  · have none : r.size = 0 := (Record.size_eq_zero_iff known).mpr rfl
    simp [Record.pass, none]
  · have some : r.size ≠ 0 := fun none => nonempty ((Record.size_eq_zero_iff known).mp none)
    have length := Record.length_data known
    have cursor := Sink.cursor_write (e.sink.seek offset) data
    have size := Sink.size_write (e.sink.seek offset) data nonempty
    have seek : (e.sink.seek offset).cursor = offset ∧ (e.sink.seek offset).content = e.sink.content := ⟨rfl, rfl⟩
    rw [seek.1] at cursor size
    rw [seek.2] at size
    rw [Record.pass, if_neg some, if_neg some]
    dsimp only
    rw [cursor, size, length, place]
    push_cast
    exact ⟨rfl, rfl, rfl⟩

theorem each_moves (ran : Run.each (step base) e records = .ok last) :
    last.written = e.written + (records.map Record.size).sum ∧
      (last.sink.cursor : Int) = Record.cursorAfter base e.sink.cursor records := by
  induction records generalizing e with
  | nil =>
    cases ran
    exact ⟨by simp, rfl⟩
  | cons r records ih =>
    obtain ⟨next, stepped, later⟩ := andThen_eq_ok ran
    obtain ⟨written, cursor, _⟩ := step_moves stepped
    obtain ⟨total, reached⟩ := ih later
    rw [written] at total
    rw [cursor] at reached
    refine ⟨?_, reached⟩
    rw [total, List.map_cons, List.sum_cons, Nat.add_assoc]

-- The content ends where it did, or just past the last record with bytes.
theorem each_size (ran : Run.each (step base) e records = .ok last) (forward : Record.Forward base e.sink.cursor records) :
    (last.sink.content.size : Int) = max (e.sink.content.size : Int) (Record.cursorAfter base 0 records) := by
  induction records generalizing e with
  | nil =>
    cases ran
    exact (max_eq_left (Int.natCast_nonneg _)).symm
  | cons r records ih =>
    obtain ⟨next, stepped, later⟩ := andThen_eq_ok ran
    obtain ⟨_, cursor, size⟩ := step_moves stepped
    obtain ⟨first, ahead⟩ := Record.forward_cons.mp forward
    have grown := ih later (by rwa [cursor])
    rw [grown, size]
    change _ = max _ (Record.cursorAfter base (r.pass base 0) records)
    by_cases none : r.size = 0
    · rw [if_pos none, Record.pass, if_pos none]
    · have start := (first none).1
      have reached := ahead.ahead.1
      rw [Record.pass, if_neg none] at reached
      rw [if_neg none, Record.pass, if_neg none]
      rcases Record.cursorAfter_cases base records with still | ⟨last, moved⟩
      · rw [still, still]
        omega
      · rw [moved] at reached
        rw [moved, moved]
        omega

-- All records are taken, or those before the first that is not in its place.
theorem each_exact (base : Int) (e : Emission) (known : ∀ r ∈ records, ∃ data, r.data = .ok data) :
    (∃ last, Run.each (step base) e records = .ok last ∧ Record.Forward base e.sink.cursor records) ∨
      ∃ front r back fault stopped, records = front ++ r :: back ∧ r.size ≠ 0 ∧
        ¬ (0 ≤ r.position - base ∧ Record.cursorAfter base e.sink.cursor front ≤ r.position - base) ∧
        Run.each (step base) e front = .ok stopped ∧ Run.each (step base) e records = stopped.refuse r fault := by
  induction records generalizing e with
  | nil => exact .inl ⟨e, rfl, Record.forward_nil⟩
  | cons r records ih =>
    obtain ⟨data, here⟩ := known r List.mem_cons_self
    rcases step_exact base e here with ⟨next, stepped, inPlace⟩ | ⟨some, misplaced, fault, refused⟩
    · have cursor := (step_moves stepped).2.1
      have first (rest : List Record) : Run.each (step base) e (r :: rest) = Run.each (step base) next rest := by
        rw [each_cons, stepped, andThen_ok]
      rcases ih next (fun other member => known other (List.mem_cons_of_mem _ member)) with
        ⟨last, ran, ahead⟩ | ⟨front, other, back, fault, stopped, rfl, some, misplaced, before, refused⟩
      · rw [cursor] at ahead
        exact .inl ⟨last, by rw [first, ran], Record.forward_cons.mpr ⟨inPlace, ahead⟩⟩
      · rw [cursor] at misplaced
        exact .inr ⟨r :: front, other, back, fault, stopped, rfl, some, misplaced, by rw [first, before],
          by rw [first, refused]⟩
    · refine .inr ⟨[], r, records, fault, e, rfl, some, misplaced, rfl, ?_⟩
      rw [each_cons, refused]
      rfl

end Emission

namespace Sink

theorem getElem?_eq_byteAt (s : Sink) (i : Nat) :
    s.content[i]? = if i < s.content.size then some (s.byteAt i) else none := by
  split
  · rename_i inside
    exact getElem?_of_byteAt inside
  · rename_i past
    exact Array.getElem?_eq_none (Nat.le_of_not_lt past)

-- What an untouched offset holds once the content has grown.
theorem byteAt_up_to (s : Sink) {size : Nat} {reached : Int} (grown : (size : Int) = max (s.content.size : Int) reached)
    (i : Nat) : (if i < size then some (s.byteAt i) else none) =
      if i < s.content.size then s.content[i]? else if (i : Int) < reached then some 0 else none := by
  by_cases inside : i < s.content.size
  · rw [if_pos inside, if_pos (by omega), getElem?_of_byteAt inside]
  · rw [if_neg inside]
    have zero : s.byteAt i = 0 := by
      unfold byteAt
      rw [Array.getD_eq_getD_getElem?, Array.getElem?_eq_none (Nat.le_of_not_lt inside), Option.getD_none]
    by_cases before : (i : Int) < reached
    · rw [if_pos (by omega), if_pos before, zero]
    · rw [if_neg (by omega), if_neg before]

-- Records that have data are written exactly when they go forward. Each offset then holds the byte of the one record
-- that covers it, or what it held before, or zero up to the end. Otherwise the sink is left as the records before the
-- first misplaced one make it.
theorem emit_exact (s : Sink) (base : Int) (records : List Record) (known : ∀ r ∈ records, ∃ data, r.data = .ok data) :
    ((∃ last, s.emit base records = .ok last) ↔ Record.Forward base s.cursor records) ∧
    (∀ last, s.emit base records = .ok last →
      last.written = (records.map Record.size).sum ∧
      (last.sink.cursor : Int) = Record.cursorAfter base s.cursor records ∧
      (records.Pairwise fun r other => ∀ i byte byte', r.Puts base i byte → ¬ other.Puts base i byte') ∧
      ∀ i : Nat,
        (∀ r ∈ records, ∀ byte, r.Puts base i byte → last.sink.content[i]? = some byte) ∧
        ((∀ r ∈ records, ∀ byte, ¬ r.Puts base i byte) → last.sink.content[i]? =
          if i < s.content.size then s.content[i]?
          else if (i : Int) < Record.cursorAfter base 0 records then some 0 else none)) ∧
    ∀ stop, s.emit base records = .error stop → ∃ front r back fault, records = front ++ r :: back ∧ r.size ≠ 0 ∧
      ¬ (0 ≤ r.position - base ∧ Record.cursorAfter base s.cursor front ≤ r.position - base) ∧
      s.emit base front = .ok stop.state ∧
      stop.failure = .report ⟨.output fault, r.token?.map (·.location), none⟩ := by
  unfold emit
  rcases Emission.each_exact base ⟨s, 0⟩ known with
    ⟨made, ran, forward⟩ | ⟨front, r, back, fault, left, parts, some, misplaced, before, refused⟩
  · refine ⟨⟨fun _ => forward, fun _ => ⟨made, ran⟩⟩, ?_, ?_⟩
    · intro last again
      obtain rfl : made = last := Except.ok.inj (ran.symm.trans again)
      obtain ⟨written, cursor⟩ := Emission.each_moves ran
      have writes := Emission.each_writes ran
      refine ⟨by simpa using written, cursor, forward.apart, fun i => ⟨?_, ?_⟩⟩
      · intro r member byte puts
        exact writes.getElem? member puts
      · intro free
        rw [made.sink.getElem?_eq_byteAt, writes.rest i free]
        exact s.byteAt_up_to (Emission.each_size ran forward) i
    · intro stop stopped
      rw [ran] at stopped
      cases stopped
  · refine ⟨⟨?_, ?_⟩, ?_, ?_⟩
    · rintro ⟨last, ran⟩
      rw [refused] at ran
      cases ran
    · intro forward
      exact absurd (forward front r back parts some) misplaced
    · intro last ran
      rw [refused] at ran
      cases ran
    · intro stop stopped
      rw [refused] at stopped
      cases stopped
      exact ⟨front, r, back, fault, parts, some, misplaced, before, rfl⟩

-- The sink holds something behind its cursor. An empty record may lie further back; a last record that reaches back
-- over the one before it leaves all that was written.
theorem emit_exact_prefilled :
    let s : Sink := ⟨#[1, 2, 3, 4, 5], 1⟩
    let records : List Record := [.bytes 0x102 [10] none, .bytes 0x100 [] none, .bytes 0x104 [11, 12] none]
    (∃ last, s.emit 0x100 records = .ok last ∧ last.written = 3 ∧ last.sink.cursor = 6 ∧
      last.sink.content[2]? = some 10 ∧ last.sink.content[3]? = some 4 ∧ last.sink.content[6]? = none) ∧
    ∃ stop front r back, s.emit 0x100 (records ++ [.bytes 0x105 [13] none]) = .error stop ∧
      stop.state.sink = ⟨#[1, 2, 10, 4, 11, 12], 6⟩ ∧ records ++ [.bytes 0x105 [13] none] = front ++ r :: back ∧
      s.emit 0x100 front = .ok stop.state := by
  intro s records
  have known : ∀ r ∈ records ++ [.bytes 0x105 [13] none], ∃ data, r.data = .ok data := by simp [records, Record.data]
  have forward : Record.Forward 0x100 s.cursor records := by
    simp [s, records, Record.forward_cons, Record.forward_nil, Record.pass, Record.size, Record.position]
  refine ⟨?_, ?_⟩
  · obtain ⟨taken, held, _⟩ := emit_exact s 0x100 records fun r member => known r (List.mem_append_left _ member)
    obtain ⟨last, ran⟩ := taken.mpr forward
    obtain ⟨written, cursor, _, content⟩ := held last ran
    have free (i : Nat) (outside : i = 3 ∨ i = 6) : ∀ r ∈ records, ∀ byte, ¬ r.Puts 0x100 i byte := by
      intro r member byte puts
      have within := puts.within
      simp only [records, List.mem_cons, List.not_mem_nil, or_false] at member
      rcases member with rfl | rfl | rfl <;> simp [Record.size, Record.position] at within <;> omega
    refine ⟨last, ran, written, ?_, ?_, ?_, ?_⟩
    · exact Int.ofNat.inj cursor
    · exact (content 2).1 (.bytes 0x102 [10] none) (by simp [records]) 10 ⟨[10], 0, rfl, rfl, by decide⟩
    · exact (content 3).2 (free 3 (.inl rfl))
    · exact (content 6).2 (free 6 (.inr rfl))
  · have stopped : (s.emit 0x100 (records ++ [.bytes 0x105 [13] none])).failure?.isSome = true ∧
        (s.emit 0x100 (records ++ [.bytes 0x105 [13] none])).state.sink = ⟨#[1, 2, 10, 4, 11, 12], 6⟩ := by decide
    obtain ⟨f, failed⟩ := Option.isSome_iff_exists.mp stopped.1
    obtain ⟨stop, error, _⟩ := eq_error_of_failure? failed
    obtain ⟨front, r, back, _, parts, _, _, before, _⟩ := (emit_exact s 0x100 _ known).2.2 stop error
    rw [error] at stopped
    exact ⟨stop, front, r, back, error, stopped.2, parts, before⟩

end Sink

end RuneAsm
