import Mathlib
import RuneAsm.Proofs.Inputs
import RuneAsm.Proofs.Laying

namespace RuneAsm

open Run

-- When a program can be laid out. Each label has to be placed, and once only, and each operand has to reach the address
-- of its label; the operands then hold numbers that lead there. Otherwise a name that comes twice is told first, and
-- after that the first operand that finds no address or does not reach it.

namespace Operand

variable {o : Operand} {address : Int} {symbols : SymbolTable}

-- One byte reaches a distance with or without sign, and the zero page only itself.
def InReach (o : Operand) (address : Int) : Prop :=
  match o.mode with
  | .relative8 => -128 ≤ address - (o.target + 2) ∧ address - (o.target + 2) ≤ 255
  | .zeroPage => 0 ≤ address ∧ address ≤ 255
  | .relative16 | .absolute => True

-- A number that fits into the operand and leads to the address, from the operand on or by itself.
structure Leads (o : Operand) (address value : Int) : Prop where
  nonneg : 0 ≤ value
  fits : value < 2 ^ (8 * o.mode.width)
  relative : o.mode = .relative8 ∨ o.mode = .relative16 →
    o.target + 2 + value ≡ address [ZMOD 2 ^ (8 * o.mode.width)]
  zeroPage : o.mode = .zeroPage → value = address
  absolute : o.mode = .absolute → value = address % 2 ^ 16

theorem leads_distance (address : Int) (relative : o.mode = .relative8 ∨ o.mode = .relative16) :
    o.Leads address ((address - o.target - relativeBias) % 2 ^ (8 * o.mode.width)) := by
  have positive : (0 : Int) < 2 ^ (8 * o.mode.width) := by positivity
  refine ⟨Int.emod_nonneg _ positive.ne', Int.emod_lt_of_pos _ positive, ?_, ?_, ?_⟩
  · intro _
    calc o.target + 2 + (address - o.target - relativeBias) % 2 ^ (8 * o.mode.width)
        ≡ o.target + 2 + (address - o.target - relativeBias) [ZMOD 2 ^ (8 * o.mode.width)] :=
          (Int.mod_modEq _ _).add_left _
      _ = address := by
          unfold relativeBias
          ring
  · intro zeroPage
    rw [zeroPage] at relative
    simp at relative
  · intro absolute
    rw [absolute] at relative
    simp at relative

theorem valueFor_inReach (reach : o.InReach address) : ∃ value, o.valueFor address = .ok value ∧ o.Leads address value := by
  unfold InReach at reach
  unfold valueFor
  dsimp only
  cases mode : o.mode with
  | relative8 =>
    rw [mode] at reach
    have near : -0x80 ≤ address - o.target - relativeBias ∧ address - o.target - relativeBias ≤ 0xFF := by
      unfold relativeBias
      omega
    have leads := leads_distance address (.inl mode)
    simp only [mode] at leads
    exact ⟨_, if_pos near, leads⟩
  | relative16 =>
    have leads := leads_distance address (.inr mode)
    simp only [mode] at leads
    exact ⟨_, rfl, leads⟩
  | zeroPage =>
    rw [mode] at reach
    refine ⟨address, if_pos reach, reach.1, ?_, by simp [mode], fun _ => rfl, by simp [mode]⟩
    simp only [mode, AddressingMode.width]
    omega
  | absolute =>
    refine ⟨_, rfl, Int.emod_nonneg _ (by decide), ?_, by simp [mode], by simp [mode], fun _ => rfl⟩
    simp only [mode, AddressingMode.width]
    exact Int.emod_lt_of_pos _ (by decide)

theorem valueFor_far (far : ¬ o.InReach address) : ∃ value, o.valueFor address = .error (o.outOfRange value) := by
  unfold InReach at far
  unfold valueFor
  dsimp only
  cases mode : o.mode with
  | relative8 =>
    rw [mode] at far
    refine ⟨_, if_neg ?_⟩
    unfold relativeBias
    omega
  | zeroPage =>
    rw [mode] at far
    exact ⟨_, if_neg far⟩
  | relative16 | absolute =>
    rw [mode] at far
    exact absurd trivial far

theorem leads_of_valueFor {value : Int} (given : o.valueFor address = .ok value) :
    o.InReach address ∧ o.Leads address value := by
  by_cases reach : o.InReach address
  · obtain ⟨_, same, leads⟩ := valueFor_inReach reach
    rw [given] at same
    cases same
    exact ⟨reach, leads⟩
  · obtain ⟨_, failed⟩ := valueFor_far reach
    rw [given] at failed
    cases failed

theorem far_of_valueFor {f : Failure} (failed : o.valueFor address = .error f) : ¬ o.InReach address := by
  intro reach
  obtain ⟨_, given, _⟩ := valueFor_inReach reach
  rw [failed] at given
  cases given

-- What is wrong with an operand, where the labels have the places given.
inductive Offends (places : List (String × Int)) (o : Operand) : Failure → Prop where
  | unplaced (absent : o.label ∉ places.map (·.1)) (note : Option String) (similar : List String) :
      Offends places o (.report ⟨.undefinedLabel o.label note similar, some o.token.location, none⟩)
  | far {address : Int} (placed : (o.label, address) ∈ places) (far : ¬ o.InReach address) (value : Int) :
      Offends places o (.report ⟨.referenceRange o.label value o.mode.name, some o.token.location, none⟩)

-- The operand with a number that leads to its label.
def Settles (places : List (String × Int)) (o filled : Operand) : Prop :=
  ∃ address value, (o.label, address) ∈ places ∧ o.InReach address ∧ o.Leads address value ∧
    filled = { o with value := some value }

end Operand

-- Whatever is wrong with an operand, it does not reach a place of its label.
theorem Operand.Offends.not_inReach {o : Operand} {c : Cursor} {tokens : List Token} {f : Failure} {address : Int}
    (offends : o.Offends (c.placements tokens) f) (once : (tokens.flatMap (·.kind.places)).Nodup)
    (placed : (o.label, address) ∈ c.placements tokens) : ¬ o.InReach address := by
  cases offends with
  | unplaced absent => exact absurd (List.mem_map_of_mem placed) absent
  | far elsewhere far =>
    rw [Cursor.placements_unique once placed elsewhere]
    exact far

namespace Layout

variable {l last : Layout} {c : Cursor} {o : Operand} {t : Token} {tokens done : List Token}

-- The operands of a layout, in output order.
def operands (l : Layout) : List Operand := l.records.toList.filterMap Record.operand?

-- Where both positions are before the first token.
def origin (l : Layout) : Cursor := ⟨l.loadBase, l.loadBase⟩

-- The layout has found what the cursor tells, and no name twice.
structure Agrees (c : Cursor) (done : List Token) (l : Layout) : Prop where
  position : At (c.after done) l
  operands : l.operands = c.operands done
  addresses : ∀ name a, l.symbols.addressOf? name = some a ↔ (name, a) ∈ c.placements done
  once : (done.flatMap (·.kind.places)).Nodup

theorem Agrees.unplaced_iff (agrees : Agrees c done l) {name : String} :
    l.symbols.addressOf? name = none ↔ name ∉ done.flatMap (·.kind.places) := by
  rw [Option.eq_none_iff_forall_not_mem, ← Cursor.placements_names (c := c)]
  constructor
  · intro none member
    obtain ⟨⟨_, a⟩, there, rfl⟩ := List.mem_map.mp member
    exact none a ((agrees.addresses _ a).mpr there)
  · intro absent a given
    exact absent (List.mem_map_of_mem ((agrees.addresses name a).mp given))

def TwicePlaced (f : Failure) : Prop :=
  ∃ name first location, f = .report ⟨.duplicateLabel name first, some location, none⟩

theorem step_agrees (agrees : Agrees c done l) (regular : t.kind.Regular)
    (noInclusion : ∀ name, t.kind ≠ .inclusion name) :
    Ends (Agrees c (done ++ [t])) (fun f => TwicePlaced f ∧ ¬ ((done ++ [t]).flatMap (·.kind.places)).Nodup)
      (step l t) := by
  have names : (done ++ [t]).flatMap (·.kind.places) = done.flatMap (·.kind.places) ++ t.kind.places := by simp
  by_cases places : t.kind.places = []
  · obtain ⟨next, stepped, moves⟩ := step_moves agrees.position regular noInclusion places
    rw [stepped]
    refine ⟨?_, ?_, ?_, ?_⟩
    · rw [Cursor.after_snoc]
      exact moves.position
    · obtain ⟨new, records, operands, _⟩ := moves.records
      rw [Cursor.operands_snoc, ← agrees.operands, ← operands, Layout.operands, records, List.filterMap_append]
      rfl
    · rw [Cursor.placements_snoc, places, moves.symbols]
      simpa using agrees.addresses
    · rw [names, places, List.append_nil]
      exact agrees.once
  · obtain ⟨stays, noOperand⟩ := Cursor.pass_of_places (c := c.after done) places
    have ends := placeLabels_ends l t t.kind.places
    rw [step_places l places]
    cases ran : Run.each (fun l name => l.placeLabel name t) l t.kind.places with
    | ok next =>
      obtain ⟨symbols, rfl, ⟨separate, unplaced⟩, addresses⟩ := ends.ok ran
      refine ⟨?_, ?_, ?_, ?_⟩
      · rw [Cursor.after_snoc, stays]
        exact ⟨agrees.position.output, agrees.position.target⟩
      · rw [Cursor.operands_snoc, noOperand]
        exact agrees.operands.trans (List.append_nil _).symm
      · intro name a
        rw [addresses, agrees.addresses, Cursor.placements_snoc, agrees.position.target]
        simp
      · rw [names]
        refine List.Nodup.append agrees.once separate ?_
        intro name old recent
        exact agrees.unplaced_iff.mp (unplaced name recent) old
    | error stop =>
      obtain ⟨name, member, ⟨first, report⟩, twice⟩ := ends.error ran
      refine ⟨⟨name, first, t.location, report⟩, ?_⟩
      rw [names]
      intro nodup
      obtain ⟨a, present⟩ := twice nodup.of_append_right
      have absent : name ∉ done.flatMap (·.kind.places) :=
        fun old => (List.nodup_append.mp nodup).2.2 name old name member rfl
      rw [agrees.unplaced_iff.mpr absent] at present
      cases present

theorem agrees_start (l : Layout) : Agrees l.origin [] l.restart := by
  refine ⟨⟨rfl, by simp [restart, target, Cursor.after, origin]⟩, rfl, ?_, .nil⟩
  intro name a
  rw [restart, SymbolTable.addressOf?_clearAddresses]
  simp [Cursor.placements]

theorem linearize_agrees (l : Layout) (regular : ∀ t ∈ tokens, t.kind.Regular)
    (noInclusion : ∀ t ∈ tokens, ∀ name, t.kind ≠ .inclusion name) :
    Ends (Agrees l.origin tokens) (fun f => TwicePlaced f ∧ ¬ (tokens.flatMap (·.kind.places)).Nodup)
      (l.linearize tokens) := by
  have ends : Ends _ (fun f => TwicePlaced f ∧ ¬ (tokens.flatMap (·.kind.places)).Nodup) (l.linearize tokens) :=
    ends_each (fun rest l' => ∃ done, tokens = done ++ rest ∧ Agrees l.origin done l') (fun l' t rest before => by
      obtain ⟨done, rfl, agrees⟩ := before
      refine (step_agrees agrees (regular t (by simp)) (noInclusion t (by simp))).mono ?_ ?_
      · intro next after
        exact ⟨done ++ [t], by simp, after⟩
      · rintro f ⟨twice, again⟩
        refine ⟨twice, ?_⟩
        -- A name that comes twice in a part comes twice in the whole.
        intro nodup
        rw [List.append_cons, List.flatMap_append] at nodup
        exact again nodup.of_append_left)
    ⟨[], rfl, agrees_start l⟩
  refine ends.mono ?_ (fun _ fault => fault)
  rintro last ⟨done, split, agrees⟩
  rw [List.append_nil] at split
  exact split ▸ agrees

theorem Agrees.settles (agrees : Agrees c tokens l) {records filled : List Record}
    (pairs : List.Forall₂ (Filled l.symbols) records filled) :
    List.Forall₂ (Operand.Settles (c.placements tokens)) (records.filterMap Record.operand?)
      (filled.filterMap Record.operand?) := by
  induction pairs with
  | nil => exact .nil
  | cons pair _ ih =>
    cases pair with
    | bytes position data token => exact ih
    | @operand o address value found given =>
      obtain ⟨reach, leads⟩ := Operand.leads_of_valueFor given
      exact .cons ⟨address, value, (agrees.addresses _ _).mp found, reach, leads, rfl⟩ ih

theorem Agrees.offends (agrees : Agrees c tokens l) {f : Failure}
    (fault : l.symbols.addressOf? o.label = none ∧ f = o.undefined l.symbols ∨
      ∃ address, l.symbols.addressOf? o.label = some address ∧ o.valueFor address = .error f) :
    o.Offends (c.placements tokens) f := by
  rcases fault with ⟨missing, rfl⟩ | ⟨address, found, failed⟩
  · refine .unplaced ?_ ..
    rw [Cursor.placements_names]
    exact agrees.unplaced_iff.mp missing
  · obtain ⟨value, rfl⟩ := Operand.valueFor_error failed
    exact .far ((agrees.addresses _ _).mp found) (Operand.far_of_valueFor failed) value

theorem resolve_first (agrees : Agrees c tokens l) :
    Ends (fun last => List.Forall₂ (Operand.Settles (c.placements tokens)) (c.operands tokens) last.operands)
      (fun f => ∃ front o back, c.operands tokens = front ++ o :: back ∧
        (∀ u ∈ front, ∃ filled, u.Settles (c.placements tokens) filled) ∧ o.Offends (c.placements tokens) f)
      l.resolve := by
  have waits : ∀ o, .operand o ∈ l.records.toList → o.value = none := by
    intro o member
    have listed : o ∈ l.operands := List.mem_filterMap.mpr ⟨_, member, rfl⟩
    rw [agrees.operands] at listed
    exact Cursor.operands_wait o listed
  refine (resolveRecords_ends { l with records := #[] } waits).mono ?_ ?_
  · rintro next ⟨_, filled, records, pairs⟩
    rw [operands, records, ← agrees.operands]
    exact agrees.settles pairs
  · rintro f ⟨front, filled, o, back, parts, pairs, fault⟩
    refine ⟨front.filterMap Record.operand?, o, back.filterMap Record.operand?, ?_, ?_, agrees.offends fault⟩
    · rw [← agrees.operands, operands, parts, List.filterMap_append, List.filterMap_cons]
      rfl
    · intro u member
      obtain ⟨later, _, settles⟩ := (mem_of_forall₂ (agrees.settles pairs)).1 u member
      exact ⟨later, settles⟩

-- Tokens that the layout can take.
structure Suitable (tokens : List Token) : Prop where
  regular : ∀ t ∈ tokens, t.kind.Regular
  noInclusion : ∀ t ∈ tokens, ∀ name, t.kind ≠ .inclusion name

theorem generate_first (l : Layout) (suitable : Suitable tokens) :
    Ends (fun last => (tokens.flatMap (·.kind.places)).Nodup ∧
        List.Forall₂ (Operand.Settles (l.origin.placements tokens)) (l.origin.operands tokens) last.operands)
      (fun f => ¬ (tokens.flatMap (·.kind.places)).Nodup ∧ TwicePlaced f ∨
        (tokens.flatMap (·.kind.places)).Nodup ∧ ∃ front o back, l.origin.operands tokens = front ++ o :: back ∧
          (∀ u ∈ front, ∃ filled, u.Settles (l.origin.placements tokens) filled) ∧
          o.Offends (l.origin.placements tokens) f)
      (l.generate tokens) := by
  have walk := linearize_agrees l suitable.regular suitable.noInclusion
  refine (walk.mono (fun _ agrees => agrees) fun f fault => ?_).andThen fun middle agrees => ?_
  · exact .inl fault.symm
  · refine (resolve_first agrees).mono ?_ ?_
    · intro last pairs
      exact ⟨agrees.once, pairs⟩
    · intro f first
      exact .inr ⟨agrees.once, first⟩

-- Preprocessed programs can be laid out, and they are exactly when each label is placed once and every operand reaches
-- its label. The operands then lead to their labels; otherwise the first fault is told.
theorem generate_exact :
    (∀ {ctx : Context} {input : Input} {journal : Journal} {e : Expander},
      input.expand ctx { journal } = .ok e → Suitable e.program) ∧
    ∀ (l : Layout) (tokens : List Token), Suitable tokens →
      let once := (tokens.flatMap (·.kind.places)).Nodup
      let places := l.origin.placements tokens
      let waiting := l.origin.operands tokens
      ((∃ last, l.generate tokens = .ok last) ↔
        once ∧ ∀ o ∈ waiting, ∃ address, (o.label, address) ∈ places ∧ o.InReach address) ∧
      (∀ last, l.generate tokens = .ok last → List.Forall₂ (fun o filled => ∃ address value,
        (o.label, address) ∈ places ∧ o.Leads address value ∧ filled = { o with value := some value })
        waiting last.operands) ∧
      ∀ f, (l.generate tokens).failure? = some f → ¬ once ∧ TwicePlaced f ∨
        once ∧ ∃ front o back, waiting = front ++ o :: back ∧
          (∀ u ∈ front, ∃ address, (u.label, address) ∈ places ∧ u.InReach address) ∧ o.Offends places f := by
  refine ⟨fun ran => ?_, fun l tokens suitable => ?_⟩
  · obtain ⟨_, orderly, settled⟩ := Input.expand_prepared ran
    exact ⟨orderly.regular, settled.spliced⟩
  intro once places waiting
  have first := generate_first l suitable
  have reaches {o filled : Operand} (settles : o.Settles places filled) :
      ∃ address, (o.label, address) ∈ places ∧ o.InReach address := by
    obtain ⟨address, _, placed, reach, _⟩ := settles
    exact ⟨address, placed, reach⟩
  refine ⟨⟨?_, ?_⟩, ?_, ?_⟩
  · rintro ⟨last, ran⟩
    obtain ⟨nodup, pairs⟩ := first.ok ran
    refine ⟨nodup, fun o member => ?_⟩
    obtain ⟨filled, _, settles⟩ := (mem_of_forall₂ pairs).1 o member
    exact reaches settles
  · rintro ⟨nodup, reach⟩
    cases ran : l.generate tokens with
    | ok last => exact ⟨last, rfl⟩
    | error stop =>
      rcases first.error ran with ⟨twice, _⟩ | ⟨_, front, o, back, parts, _, offends⟩
      · exact absurd nodup twice
      · obtain ⟨address, placed, near⟩ := reach o (by simp [waiting, parts])
        exact absurd near (offends.not_inReach nodup placed)
  · intro last ran
    refine (first.ok ran).2.imp ?_
    rintro o filled ⟨address, value, placed, _, leads, same⟩
    exact ⟨address, value, placed, leads, same⟩
  · intro f failed
    obtain ⟨stop, ran, rfl⟩ := eq_error_of_failure? failed
    refine (first.error ran).imp_right ?_
    rintro ⟨nodup, front, o, back, parts, settled, offends⟩
    refine ⟨nodup, front, o, back, parts, fun u member => ?_, offends⟩
    obtain ⟨filled, settles⟩ := settled u member
    exact reaches settles

-- Four modes to a label that is meant for another place, from before it and after; then a label that is out of reach,
-- with one after it that is not placed at all.
theorem generate_exact_displaced :
    let l : Layout := { loadBase := 0x100, symbols := {} }
    let near : Input := .text "^40 .b ,b !b @b =b _b".toList "<input>"
    let far : Input := .text "=b .b ,a |1000 @b".toList "<input>"
    (∃ e last, near.expand ⟨{}, ⟨[], []⟩⟩ { journal := [] } = .ok e ∧ l.generate e.program = .ok last ∧
      last.operands.map (·.value) = [some 0x47, some 2, some 0, some 0x47, some 0xfc] ∧
      List.Forall₂ (fun o filled => ∃ address value, (o.label, address) ∈ l.origin.placements e.program ∧
        o.Leads address value ∧ filled = { o with value := some value }) (l.origin.operands e.program) last.operands) ∧
    ∃ e front o back, far.expand ⟨{}, ⟨[], []⟩⟩ { journal := [] } = .ok e ∧
      l.origin.operands e.program = front ++ o :: back ∧ o.Offends (l.origin.placements e.program)
        (.report ⟨.referenceRange "b" 0x1000 "zero-page", some ⟨"<input>", 1, 4⟩, none⟩) := by
  intro l near far
  obtain ⟨prepares, exact⟩ := generate_exact
  constructor
  · have made : ((near.expand ⟨{}, ⟨[], []⟩⟩ { journal := [] }).toOption.bind fun e =>
        (l.generate e.program).toOption.map fun last => last.operands.map (·.value)) =
          some [some 0x47, some 2, some 0, some 0x47, some 0xfc] := by decide +kernel
    obtain ⟨e, expanded, rest⟩ := Option.bind_eq_some_iff.mp made
    obtain ⟨last, ran, values⟩ := Option.map_eq_some_iff.mp rest
    have suitable := prepares (eq_ok_of_toOption expanded)
    exact ⟨e, last, eq_ok_of_toOption expanded, eq_ok_of_toOption ran, values,
      (exact l e.program suitable).2.1 last (eq_ok_of_toOption ran)⟩
  · have made : ((far.expand ⟨{}, ⟨[], []⟩⟩ { journal := [] }).toOption.bind fun e => (l.generate e.program).failure?) =
        some (.report ⟨.referenceRange "b" 0x1000 "zero-page", some ⟨"<input>", 1, 4⟩, none⟩) := by decide +kernel
    obtain ⟨e, expanded, failed⟩ := Option.bind_eq_some_iff.mp made
    have suitable := prepares (eq_ok_of_toOption expanded)
    rcases (exact l e.program suitable).2.2 _ failed with ⟨_, _, _, _, twice⟩ | ⟨_, front, o, back, parts, _, offends⟩
    · simp at twice
    · exact ⟨e, front, o, back, eq_ok_of_toOption expanded, parts, offends⟩

end Layout

end RuneAsm
