import Mathlib
import RuneAsm.Proofs.Companions
import RuneAsm.Proofs.Laying
import RuneAsm.Proofs.Moving
import RuneAsm.Proofs.Outcomes
import RuneAsm.Proofs.Writing

namespace RuneAsm

open Run

-- Images for another load base. Expansion does not know the base; a program that names no position and no page follows
-- it wherever it goes. So the image stays what it is, apart from the operands that are addresses.

def Likeness.same : Likeness := .level Eq (fun _ => False) @Journal.cons_congr

-- Nothing in an expansion looks at the load base.
theorem Likeness.same_suits (s : Settings) (base : Int) (disk : Disk) :
    Likeness.same.Suits ⟨s, disk⟩ ⟨{ s with loadBase := base }, disk⟩ where
  disk := rfl
  includePaths := rfl
  reads source file like := Expander.read_like (fun _ _ => eq_comm) rfl source file like
  maxPasses := Int.le_refl _
  maxIncludeDepth := Int.le_refl _
  maxExpansions := Int.le_refl _
  limits := .inl ⟨rfl, rfl, rfl⟩

theorem Input.expand_rebased {s : Settings} {base : Int} {disk : Disk} (input : Input) (e : Expander) :
    input.expand ⟨{ s with loadBase := base }, disk⟩ e = input.expand ⟨s, disk⟩ e := by
  apply eq_of_parallel
  refine (input.expand_like (Likeness.same_suits s base disk) (fun _ => rfl) (fun _ => rfl) e).mono ?_
  rintro last _ ⟨_, _, rfl, rfl, rfl⟩
  rfl

-- A token that holds at any place: it names no position, and no label by an address in the first page.
def TokenKind.isRelocatable : TokenKind → Bool
  | .padAbsolute _ | .retarget _ => false
  | .reference r => r.mode ≠ .zeroPage
  | _ => true

namespace Move

-- Everything moves by one distance, and so do the values that are addresses, as far as an operand can hold them.
def rebase (distance : Int) : Move :=
  ⟨distance, distance, fun mode value => if mode = .absolute then (value + distance) % 0x10000 else value⟩

variable {distance base : Int} {m : Move} {o : Operand} {r : Record}

theorem addresses_table (t : SymbolTable) :
    (m.table t).addresses = t.addresses.map (fun entry => (entry.1, entry.2 + m.seen)) := by
  unfold SymbolTable.addresses table
  rw [List.filterMap_map, List.map_filterMap]
  congr 1
  funext s
  cases anonymous : s.anonymous <;> cases address : s.address <;> simp [symbol, anonymous, address]

theorem rebase_suits {mode : AddressingMode} (noPage : mode ≠ .zeroPage) : (rebase distance).Suits mode := by
  intro o address kind
  subst kind
  have measured : address + distance - (o.target + distance) - Operand.relativeBias =
      address - o.target - Operand.relativeBias := by omega
  unfold Operand.valueFor
  cases mode : o.mode with
  | relative8 =>
    simp only [operand, rebase, mode, measured]
    split
    · rfl
    · simp [Operand.outOfRange, mode, Except.map]
  | zeroPage => exact absurd mode noPage
  | relative16 =>
    simp only [operand, rebase, mode, measured]
    rfl
  | absolute =>
    simp only [operand, rebase, mode, Except.map, if_true, Int.emod_add_emod]

theorem rebase_admits {kind : TokenKind} (relocatable : kind.isRelocatable = true) : (rebase distance).Admits kind := by
  refine ⟨?_, ?_⟩
  · intro position
    constructor
    · rintro rfl
      cases relocatable
    · rintro rfl
      cases relocatable
  · rintro r rfl
    exact rebase_suits (of_decide_eq_true relocatable)

end Move

-- A number of two bytes, the high one first.
def wordOf (high low : UInt8) : Int := 0x100 * high.toNat + low.toNat

theorem shortOf_word {value : Int} (fits : Width.Fits .short value) :
    ∃ high low, shortOf value = .ok [high, low] ∧ wordOf high low = value := by
  obtain ⟨lower, upper⟩ := fits
  refine ⟨_, _, if_pos ⟨lower, upper⟩, ?_⟩
  unfold wordOf
  simp only [UInt8.toNat_ofNat']
  omega

theorem shortOf_fits {value : Int} {data : List UInt8} (known : shortOf value = .ok data) : Width.Fits .short value := by
  unfold shortOf at known
  split at known
  · rename_i fits
    exact fits
  · cases known

def Record.IsAddress (r : Record) : Prop := ∃ o, r = .operand o ∧ o.mode = .absolute

namespace Move

variable {distance base : Int} {o : Operand} {r : Record} {data : List UInt8}

theorem rebase_data (other : ¬ r.IsAddress) : ((rebase distance).record r).data = r.data := by
  cases r with
  | bytes position data token => rfl
  | operand o =>
    have mode : o.mode ≠ .absolute := fun mode => other ⟨o, rfl, mode⟩
    have value : o.value.map ((rebase distance).value o.mode) = o.value := by
      cases o.value <;> simp [rebase, mode]
    simp only [record, Record.data, operand, Operand.data, Operand.size, value]
    rfl

-- An operand that is an address holds another one afterwards, at the distance of the move.
theorem rebase_address (distance : Int) (mode : o.mode = .absolute) (known : o.data = .ok data) : ∃ high low high' low',
    data = [high, low] ∧ ((rebase distance).operand o).data = .ok [high', low'] ∧
      wordOf high' low' = (wordOf high low + distance) % 0x10000 := by
  unfold Operand.data at known
  cases filled : o.value with
  | none => simp [filled] at known
  | some value =>
    have short : shortOf value = .ok data := by simpa [filled, Operand.size, mode, AddressingMode.width] using known
    obtain ⟨high, low, bytes, word⟩ := shortOf_word (shortOf_fits short)
    have fits : Width.Fits .short ((value + distance) % 0x10000) :=
      ⟨Int.emod_nonneg _ (by decide), Int.emod_lt_of_pos _ (by decide)⟩
    obtain ⟨high', low', bytes', word'⟩ := shortOf_word fits
    refine ⟨high, low, high', low', ?_, ?_, ?_⟩
    · rw [bytes] at short
      exact (Except.ok.inj short).symm
    · simpa [Operand.data, operand, rebase, filled, Operand.size, mode, AddressingMode.width] using bytes'
    · rw [word', word]

theorem position_record (m : Move) (r : Record) : (m.record r).position = r.position + m.written := by
  cases r <;> rfl

theorem rebase_beside (known : r.data = .ok data) : r.Beside base (base + distance) ((rebase distance).record r) := by
  refine ⟨?_, ?_⟩
  · rw [position_record, show (rebase distance).written = distance from rfl]
    omega
  · by_cases address : r.IsAddress
    · obtain ⟨o, rfl, mode⟩ := address
      obtain ⟨high, low, high', low', rfl, moved, _⟩ := rebase_address distance mode known
      exact ⟨_, _, known, moved, rfl⟩
    · exact ⟨data, data, known, (rebase_data address).trans known, rfl⟩

theorem rebase_puts (distance : Int) (other : ¬ r.IsAddress) {i : Nat} {byte : UInt8} :
    ((rebase distance).record r).Puts (base + distance) i byte ↔ r.Puts base i byte := by
  have place : r.position + distance - (base + distance) = r.position - base := by omega
  unfold Record.Puts
  rw [rebase_data other, position_record, show (rebase distance).written = distance from rfl, place]

-- The two bytes of an address are all that it takes up.
theorem puts_address (mode : o.mode = .absolute) {i : Nat} {byte : UInt8} (puts : Record.Puts base (.operand o) i byte) :
    (i : Int) = o.position - base ∨ (i : Int) = o.position - base + 1 := by
  obtain ⟨data, k, known, given, place⟩ := puts
  obtain ⟨high, low, _, _, rfl, _⟩ := rebase_address 0 mode known
  have inside : k < 2 := (List.getElem?_eq_some_iff.mp given).1
  have position : (Record.operand o).position = o.position := rfl
  rw [position] at place
  omega

end Move

namespace Emission

variable {base distance : Int} {records : List Record} {e e' : Emission}

theorem byteAt_rebased (ran : ({} : Sink).emit base records = .ok e)
    (ran' : ({} : Sink).emit (base + distance) (records.map (Move.rebase distance).record) = .ok e') {i : Nat}
    (apart : ∀ o, .operand o ∈ records → o.mode = .absolute →
      (i : Int) ≠ o.position - base ∧ (i : Int) ≠ o.position - base + 1) :
    e'.sink.byteAt i = e.sink.byteAt i := by
  have writes := each_writes ran
  have writes' := each_writes ran'
  by_cases put : ∃ r ∈ records, ∃ byte, r.Puts base i byte
  · obtain ⟨r, member, byte, puts⟩ := put
    have other : ¬ r.IsAddress := by
      rintro ⟨o, rfl, mode⟩
      obtain ⟨noHigh, noLow⟩ := apart o member mode
      exact (Move.puts_address mode puts).elim noHigh noLow
    have puts' := (Move.rebase_puts distance other).mpr puts
    rw [(writes.puts r member i byte puts).2, (writes'.puts _ (List.mem_map_of_mem member) i byte puts').2]
  · have free : ∀ r ∈ records, ∀ byte, ¬ r.Puts base i byte := by
      intro r member byte puts
      exact put ⟨r, member, byte, puts⟩
    have free' : ∀ r' ∈ records.map (Move.rebase distance).record, ∀ byte, ¬ r'.Puts (base + distance) i byte := by
      intro r' member' byte puts
      obtain ⟨r, member, rfl⟩ := List.mem_map.mp member'
      by_cases address : r.IsAddress
      · obtain ⟨o, rfl, mode⟩ := address
        obtain ⟨noHigh, noLow⟩ := apart o member mode
        have place := Move.puts_address (o := (Move.rebase distance).operand o) mode puts
        rw [show ((Move.rebase distance).operand o).position = o.position + distance from rfl] at place
        omega
      · exact free r member byte ((Move.rebase_puts distance address).mp puts)
    rw [writes.rest i free, writes'.rest i free']

theorem address_rebased (ran : ({} : Sink).emit base records = .ok e)
    (ran' : ({} : Sink).emit (base + distance) (records.map (Move.rebase distance).record) = .ok e') {o : Operand}
    (member : .operand o ∈ records) (mode : o.mode = .absolute) {data : List UInt8} (known : o.data = .ok data) :
    ∃ (i : Nat) (high low high' low' : UInt8), o.position - base = i ∧
      (e.sink.content[i]? = some high ∧ e.sink.content[i + 1]? = some low) ∧
      (e'.sink.content[i]? = some high' ∧ e'.sink.content[i + 1]? = some low') ∧
      wordOf high' low' = (wordOf high low + distance) % 0x10000 := by
  have writes := each_writes ran
  have writes' := each_writes ran'
  obtain ⟨high, low, high', low', rfl, moved, word⟩ := Move.rebase_address distance mode known
  obtain ⟨i, place⟩ := writes.offset _ member _ known (List.cons_ne_nil high [low])
  have place' : o.position + distance - (base + distance) = i := by
    rw [← place]
    exact Int.add_sub_add_right o.position distance base
  have member' := List.mem_map_of_mem (f := (Move.rebase distance).record) member
  refine ⟨i, high, low, high', low', place, ⟨?_, ?_⟩, ⟨?_, ?_⟩, word⟩
  · exact writes.getElem? member ⟨_, 0, known, rfl, by rw [place]; rfl⟩
  · exact writes.getElem? member ⟨_, 1, known, rfl, by rw [place]; rfl⟩
  · exact writes'.getElem? member' ⟨_, 0, moved, rfl, place'.symm.trans (Int.add_zero _).symm⟩
  · exact writes'.getElem? member' ⟨_, 1, moved, rfl, congrArg (· + 1) place'.symm⟩

end Emission

namespace Assembler

variable {a a' : Assembler} {distance : Int}

-- The number in the two bytes of the code from an offset on.
def word? (a : Assembler) (i : Nat) : Option Int :=
  a.code[i]?.bind fun high => a.code[i + 1]?.map (wordOf high)

-- The code and the labels of a program at so great a distance. All bytes are the same but those of addresses, which
-- are the words at the offsets of the operands of that mode.
structure Relocated (distance : Int) (a a' : Assembler) : Prop where
  size : a'.code.size = a.code.size
  labels : a'.namedAddresses = a.namedAddresses.map (fun entry => (entry.1, entry.2 + distance))
  words : ∀ o, .operand o ∈ a.records → o.mode = .absolute → ∃ (i : Nat) (value : Int),
    o.position - a.settings.loadBase = i ∧ a.word? i = some value ∧ a'.word? i = some ((value + distance) % 0x10000)
  bytes : ∀ i : Nat, (∀ o, .operand o ∈ a.records → o.mode = .absolute →
    o.position - a.settings.loadBase ≠ i ∧ o.position - a.settings.loadBase + 1 ≠ i) → a'.code[i]? = a.code[i]?

def rebased (a : Assembler) (base : Int) : Assembler := { a with settings.loadBase := base }

theorem emit_relocated (base : a'.settings.loadBase = a.settings.loadBase + distance)
    (records : a'.records = a.records.map (Move.rebase distance).record)
    (symbols : a'.symbols = (Move.rebase distance).table a.symbols)
    (known : ∀ r ∈ a.records, ∃ data, r.data = .ok data) : Together (Relocated distance) a.emit a'.emit := by
  have beside : List.Forall₂ (Record.Beside a.settings.loadBase (a.settings.loadBase + distance)) a.records
      (a.records.map (Move.rebase distance).record) := by
    rw [List.forall₂_map_right_iff, List.forall₂_same]
    intro r member
    obtain ⟨data, here⟩ := known r member
    exact Move.rebase_beside here
  have start : Emission.Level ⟨{}, 0⟩ ⟨{}, 0⟩ := ⟨rfl, rfl⟩
  have together : Together Emission.Level (({} : Sink).emit a.settings.loadBase a.records)
      (({} : Sink).emit (a.settings.loadBase + distance) (a.records.map (Move.rebase distance).record)) :=
    Emission.each_together beside start
  unfold emit
  rw [base, records]
  rcases together.cases with ⟨e, e', ran, ran', level⟩ | ⟨stop, stop', ran, ran'⟩
  · rw [ran, ran']
    refine ⟨level.size, ?_, ?_, ?_⟩
    · change a'.symbols.addresses = _
      rw [symbols]
      exact Move.addresses_table a.symbols
    · intro o member mode
      obtain ⟨data, here⟩ := known _ member
      obtain ⟨i, high, low, high', low', place, there, there', word⟩ :=
        Emission.address_rebased ran ran' member mode here
      refine ⟨i, wordOf high low, place, ?_, ?_⟩
      · simp [word?, note, there]
      · simp [word?, note, there', word]
    · intro i apart
      have same := Emission.byteAt_rebased ran ran' fun o member mode =>
        ⟨(apart o member mode).1.symm, (apart o member mode).2.symm⟩
      change e'.sink.content[i]? = e.sink.content[i]?
      by_cases inside : i < e.sink.content.size
      · rw [Sink.getElem?_of_byteAt inside, Sink.getElem?_of_byteAt (level.size ▸ inside), same]
      · rw [Array.getElem?_eq_none (Nat.le_of_not_lt inside),
          Array.getElem?_eq_none (level.size ▸ Nat.le_of_not_lt inside)]
  · rw [ran, ran']
    trivial

-- Until the program is laid out nothing depends on the base, and then everything moves with it.
theorem build_relocated (base : a'.settings.loadBase = a.settings.loadBase + distance) (tokens : a'.tokens = a.tokens)
    (symbols : a'.symbols = a.symbols) (relocatable : ∀ t ∈ a.tokens, t.kind.isRelocatable = true) (orderly : Orderly a.tokens)
    (noInclusion : ∀ t ∈ a.tokens, ∀ name, t.kind ≠ .inclusion name) (labels : (closerLabels a.tokens).Nodup) :
    Together (Relocated distance) a.build a'.build := by
  let l : Layout := { loadBase := a.settings.loadBase, symbols := a.symbols }
  let l' : Layout := { loadBase := a'.settings.loadBase, symbols := a'.symbols }
  have start : Layout.Moving (.rebase distance) l.restart l'.restart := by
    refine ⟨⟨?_, rfl⟩, base, ?_, by simp [Layout.restart]⟩
    · change a'.symbols.clearAddresses = (Move.rebase distance).table a.symbols.clearAddresses
      rw [symbols, Move.table_clearAddresses]
    · change a'.settings.loadBase + 0 = a.settings.loadBase + 0 + distance
      omega
  have admits : ∀ t ∈ a.tokens, (Move.rebase distance).Admits t.kind :=
    fun t member => Move.rebase_admits (relocatable t member)
  have walk : Parallel (Layout.Moving (.rebase distance)) (l.linearize a.tokens) (l'.linearize a'.tokens) := by
    rw [tokens]
    exact Layout.walk_parallel start admits
  have ends := Layout.generate_ends l orderly noInclusion labels
  unfold Layout.generate at ends
  unfold build
  dsimp only
  rcases walk.together.cases with ⟨laid, laid', walked, walked', moving⟩ | ⟨stop, stop', walked, walked'⟩
  · rw [show Layout.linearize _ a.tokens = _ from walked, show Layout.linearize _ a'.tokens = _ from walked']
    dsimp only
    rw [walked, andThen_ok] at ends
    rcases (Layout.resolve_parallel moving).together.cases with ⟨last, last', ran, ran', moved⟩ | ⟨stop, stop', ran, ran'⟩
    · rw [ran, ran']
      exact emit_relocated base moved.records moved.symbols (ends.ok ran).data
    · rw [ran, ran']
      trivial
  · rw [show Layout.linearize _ a.tokens = _ from walked, show Layout.linearize _ a'.tokens = _ from walked']
    trivial

theorem emit_tokens (a : Assembler) : a.emit.state.tokens = a.tokens := by
  unfold emit
  split <;> rfl

theorem build_tokens (a : Assembler) : a.build.state.tokens = a.tokens := by
  unfold build
  dsimp only
  split
  · rfl
  · split
    · rfl
    · exact emit_tokens _

-- A program without positions of its own is assembled from one load base exactly if it is from another. The two images
-- are of one length and differ only in the words that are addresses; those differ by the distance of the bases, as far
-- as a word can hold it, and the addresses of the labels differ by all of it.
theorem assembleInput_relocated (a : Assembler) (base : Int) (disk : Disk) (input : Input)
    (relocatable : ∀ t ∈ (a.assembleInput disk input).state.tokens, t.kind.isRelocatable = true) :
    ((∃ b, a.assembleInput disk input = .ok b) ↔ ∃ b', (a.rebased base).assembleInput disk input = .ok b') ∧
    ∀ b b', a.assembleInput disk input = .ok b → (a.rebased base).assembleInput disk input = .ok b' →
      Relocated (base - a.settings.loadBase) b b' := by
  have together : Together (Relocated (base - a.settings.loadBase)) (a.assembleInput disk input)
      ((a.rebased base).assembleInput disk input) := by
    rw [assembleInput_eq] at relocatable ⊢
    rw [assembleInput_eq]
    have unread : input.expand ⟨(a.rebased base).settings, disk⟩ { journal := [.assembling input.name] } =
        input.expand ⟨a.settings, disk⟩ { journal := [.assembling input.name] } := input.expand_rebased _
    cases expanded : input.expand ⟨a.settings, disk⟩ { journal := [.assembling input.name] } with
    | error stop =>
      rw [assembleWith_error a expanded, assembleWith_error (a.rebased base) (unread.trans expanded)]
      trivial
    | ok e =>
      rw [assembleWith_ok a expanded, build_tokens] at relocatable
      rw [assembleWith_ok a expanded, assembleWith_ok (a.rebased base) (unread.trans expanded)]
      obtain ⟨holds, orderly, settled⟩ := Input.expand_prepared expanded
      refine build_relocated ?_ rfl rfl relocatable orderly settled.spliced holds.labels
      change base = a.settings.loadBase + (base - a.settings.loadBase)
      omega
  rcases together.cases with ⟨b, b', ran, ran', moved⟩ | ⟨stop, stop', ran, ran'⟩
  · refine ⟨⟨fun _ => ⟨b', ran'⟩, fun _ => ⟨b, ran⟩⟩, ?_⟩
    intro c c' first second
    rw [ran] at first
    rw [ran'] at second
    cases first
    cases second
    exact moved
  · simp [ran, ran']

-- From the second base on the address of the label does not fit into a word, and what a word holds of it is written.
theorem assembleInput_relocated_wrapping :
    let input : Input := .text "%m [ ?a ] @a ;a ,a $2 m \x22x =b @b".toList "<input>"
    let a : Assembler := {}
    ∃ b b', a.assembleInput ⟨[], []⟩ input = .ok b ∧ (a.rebased 0x10080).assembleInput ⟨[], []⟩ input = .ok b' ∧
      b.code = #[0xa0, 1, 0, 0x80, 0xfa, 0, 0, 0x20, 0xff, 0xf6, 0x78, 1, 0xd] ∧
      b'.code = #[0xa0, 0, 0x80, 0x80, 0xfa, 0, 0, 0x20, 0xff, 0xf6, 0x78, 0, 0x8d] ∧
      b.namedAddresses = [("a", 0x100), ("b", 0x10d)] ∧ Relocated 0xff80 b b' := by
  intro input a
  have relocatable : ∀ t ∈ (a.assembleInput ⟨[], []⟩ input).state.tokens, t.kind.isRelocatable = true := by
    decide +kernel
  have made : (a.assembleInput ⟨[], []⟩ input).toOption.map (fun b => (b.code, b.namedAddresses)) =
      some (#[0xa0, 1, 0, 0x80, 0xfa, 0, 0, 0x20, 0xff, 0xf6, 0x78, 1, 0xd], [("a", 0x100), ("b", 0x10d)]) := by
    decide +kernel
  have made' : ((a.rebased 0x10080).assembleInput ⟨[], []⟩ input).toOption.map (·.code) =
      some #[0xa0, 0, 0x80, 0x80, 0xfa, 0, 0, 0x20, 0xff, 0xf6, 0x78, 0, 0x8d] := by
    decide +kernel
  obtain ⟨b, ran, found⟩ := Option.map_eq_some_iff.mp made
  obtain ⟨code, addresses⟩ := Prod.mk.inj found
  obtain ⟨b', ran', code'⟩ := Option.map_eq_some_iff.mp made'
  have relocated := (assembleInput_relocated a 0x10080 ⟨[], []⟩ input relocatable).2 b b' (eq_ok_of_toOption ran)
    (eq_ok_of_toOption ran')
  exact ⟨b, b', eq_ok_of_toOption ran, eq_ok_of_toOption ran', code, code', addresses, relocated⟩

end Assembler

end RuneAsm
