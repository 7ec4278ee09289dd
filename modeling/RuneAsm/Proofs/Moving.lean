import Mathlib
import RuneAsm.Layout
import RuneAsm.Proofs.Alike

namespace RuneAsm

open Run

-- The same code at another place. What is written may move by one distance and the addresses that the program sees by
-- another. A program that names no position of its own keeps both distances from its first token to its last, so the
-- two layouts have the same records but for where they stand, or fail alike. Code under a target position is one case:
-- its records move and its addresses stay.

-- How one layout lies to another: the distance of what they write, the distance of the addresses that they give, and
-- what becomes of the value of an operand.
structure Move where
  written : Int
  seen : Int
  value : AddressingMode → Int → Int

namespace Move

def symbol (m : Move) (s : Symbol) : Symbol := { s with address := s.address.map (· + m.seen) }

def table (m : Move) (t : SymbolTable) : SymbolTable := ⟨t.entries.map m.symbol⟩

def operand (m : Move) (o : Operand) : Operand :=
  { o with
    position := o.position + m.written
    target := o.target + m.seen
    value := o.value.map (m.value o.mode) }

def record (m : Move) : Record → Record
  | .bytes position data token => .bytes (position + m.written) data token
  | .operand o => .operand (m.operand o)

-- Operands of the mode get the values that the move foresees, and fail to fit as they did.
def Suits (m : Move) (mode : AddressingMode) : Prop :=
  ∀ o address, o.mode = mode → (m.operand o).valueFor (address + m.seen) = (o.valueFor address).map (m.value mode)

-- A token that names no position, and refers to labels in no mode that the move does not suit.
structure Admits (m : Move) (kind : TokenKind) : Prop where
  unfixed : ∀ position, kind ≠ .padAbsolute position ∧ kind ≠ .retarget position
  modes : ∀ r, kind = .reference r → m.Suits r.mode

variable {m : Move} {t : SymbolTable} {name : String} {address : Int}

theorem find?_table : (m.table t).find? name = (t.find? name).map m.symbol := by
  unfold SymbolTable.find? table
  rw [List.find?_map]
  rfl

theorem addressOf?_table : (m.table t).addressOf? name = (t.addressOf? name).map (· + m.seen) := by
  unfold SymbolTable.addressOf?
  rw [find?_table]
  cases t.find? name with
  | none => rfl
  | some s => rfl

theorem similar_table (limit : Nat) : (m.table t).similar name limit = t.similar name limit := by
  unfold SymbolTable.similar table
  rw [List.filter_map, List.map_map]
  rfl

theorem table_clearAddresses : m.table t.clearAddresses = t.clearAddresses := by
  unfold table SymbolTable.clearAddresses
  rw [List.map_map]
  rfl

theorem table_eq_self (still : m.seen = 0) : m.table t = t := by
  have same : m.symbol = id := by
    funext s
    obtain ⟨name, location, address, anonymous⟩ := s
    simp [symbol, still]
  unfold table
  rw [same, List.map_id]

theorem table_modifyAddress :
    (m.table t).modifyAddress name (address + m.seen) = m.table (t.modifyAddress name address) := by
  unfold table SymbolTable.modifyAddress
  rw [List.map_map, List.map_map]
  congr 2
  funext s
  by_cases same : s.name = name <;> simp [symbol, same]

theorem place_table (m : Move) (t : SymbolTable) (name : String) (address : Int) (location : Location) :
    (∃ s, t.place name address location = .error s ∧
      (m.table t).place name (address + m.seen) location = .error (m.symbol s)) ∨
    ∃ next, t.place name address location = .ok next ∧
      (m.table t).place name (address + m.seen) location = .ok (m.table next) := by
  unfold SymbolTable.place
  rw [find?_table]
  cases t.find? name with
  | none =>
    refine .inr ⟨_, rfl, ?_⟩
    simp [table, symbol]
  | some s =>
    cases given : s.address with
    | some a => exact .inl ⟨s, by simp [given], by simp [symbol, given]⟩
    | none => exact .inr ⟨t.modifyAddress name address, by simp [given], by simp [symbol, given, table_modifyAddress]⟩

variable {o : Operand}

theorem undefined_operand : (m.operand o).undefined (m.table t) = o.undefined t := by
  have declared : (((m.table t).find? o.label).map (·.location)) = (t.find? o.label).map (·.location) := by
    rw [find?_table, Option.map_map]
    rfl
  have told (table : SymbolTable) : (table.find? o.label).map
      (fun s => s!"'{o.label}' is defined at {s.location.text} but never assembled") =
        ((table.find? o.label).map (·.location)).map
          (fun location => s!"'{o.label}' is defined at {location.text} but never assembled") := by
    rw [Option.map_map]
    rfl
  change Failure.report _ = Failure.report _
  rw [similar_table]
  dsimp only [operand]
  rw [told, told, declared]

theorem resolve_operand {value : Int} :
    (m.operand o).resolve (m.value o.mode value) = (o.resolve value).map m.operand := by
  unfold Operand.resolve
  cases filled : o.value with
  | none => simp [operand, filled, Except.map]
  | some earlier => simp [operand, filled, Except.map]

theorem resolveIn_operand (suits : m.Suits o.mode) :
    (m.operand o).resolveIn (m.table t) = (o.resolveIn t).map m.operand := by
  unfold Operand.resolveIn
  rw [show (m.operand o).label = o.label from rfl, addressOf?_table]
  cases t.addressOf? o.label with
  | none => exact congrArg Except.error undefined_operand
  | some address =>
    dsimp only [Option.map_some]
    rw [suits o address rfl]
    cases o.valueFor address with
    | error f => rfl
    | ok value => exact resolve_operand

theorem resolveIn_record {r : Record} (suits : ∀ o, r = .operand o → m.Suits o.mode) :
    (m.record r).resolveIn (m.table t) = (r.resolveIn t).map m.record := by
  cases r with
  | bytes position data token => rfl
  | operand o =>
    have moved := resolveIn_operand (t := t) (suits o rfl)
    unfold Record.resolveIn record
    dsimp only
    rw [moved]
    cases o.resolveIn t <;> rfl

end Move

namespace Layout

variable {m : Move} {l l' : Layout}

-- The second layout is where the move takes the first.
structure Moved (m : Move) (l l' : Layout) : Prop where
  symbols : l'.symbols = m.table l.symbols
  records : l'.records.toList = l.records.toList.map m.record

-- So far it is, and it will go on to be: the next byte and its address are at their distances as well, and the move
-- suits the operands that wait for a value.
structure Moving (m : Move) (l l' : Layout) : Prop extends Moved m l l' where
  output : l'.output = l.output + m.written
  target : l'.target = l.target + m.seen
  modes : ∀ o, .operand o ∈ l.records.toList → m.Suits o.mode

theorem Moving.advance (moving : Moving m l l') (count : Int) :
    Moving m { l with output := l.output + count } { l' with output := l'.output + count } := by
  have output := moving.output
  have target := moving.target
  unfold Layout.target at target
  refine ⟨⟨moving.symbols, moving.records⟩, ?_, ?_, moving.modes⟩
  · dsimp only
    omega
  · dsimp only [Layout.target]
    omega

theorem Moving.emit (moving : Moving m l l') (data : List UInt8) (t : Token) : Moving m (l.emit data t) (l'.emit data t) := by
  have next := moving.advance data.length
  refine ⟨⟨next.symbols, ?_⟩, next.output, next.target, ?_⟩
  · simp [Layout.emit, moving.records, moving.output, Move.record]
  · simpa [Layout.emit] using moving.modes

theorem Moving.emitOperand (moving : Moving m l l') {mode : AddressingMode} (suits : m.Suits mode) (label : String)
    (t : Token) : Moving m (l.emitOperand label mode t) (l'.emitOperand label mode t) := by
  have next := moving.advance mode.width
  refine ⟨⟨next.symbols, ?_⟩, next.output, next.target, ?_⟩
  · simp [Layout.emitOperand, moving.records, moving.output, moving.target, Move.record, Move.operand]
  · intro o member
    simp only [Layout.emitOperand, Array.toList_push, List.mem_append, List.mem_singleton, Record.operand.injEq] at member
    rcases member with earlier | rfl
    · exact moving.modes o earlier
    · exact suits

theorem placeLabel_parallel (moving : Moving m l l') (name : String) (t : Token) :
    Parallel (Moving m) (l.placeLabel name t) (l'.placeLabel name t) := by
  unfold placeLabel
  rw [moving.symbols, moving.target]
  rcases Move.place_table m l.symbols name l.target t.location with
    ⟨s, failed, failed'⟩ | ⟨next, placed, placed'⟩
  · rw [failed, failed']
    exact mirrors_fail moving _
  · rw [placed, placed']
    exact mirrors_ok ⟨⟨rfl, moving.records⟩, moving.output, moving.target, moving.modes⟩

theorem emitNumber_parallel (moving : Moving m l l') (value : Int) (width : Width) (t : Token) :
    Parallel (Moving m) (l.emitNumber value width t) (l'.emitNumber value width t) := by
  unfold emitNumber
  split
  · exact mirrors_ok (moving.emit _ t)
  · exact mirrors_fail moving _

theorem emitInstruction_parallel (moving : Moving m l l') (mnemonic : String) (t : Token) :
    Parallel (Moving m) (l.emitInstruction mnemonic t) (l'.emitInstruction mnemonic t) := by
  unfold emitInstruction
  split
  · exact mirrors_ok (moving.emit _ t)
  · exact mirrors_fail moving _

theorem emitReference_parallel (moving : Moving m l l') {r : Reference} (suits : m.Suits r.mode) (t : Token) :
    Parallel (Moving m) (l.emitReference r t) (l'.emitReference r t) := by
  unfold emitReference
  split
  · exact mirrors_fail moving _
  · rename_i label _
    split
    · exact mirrors_ok (moving.emitOperand suits label t)
    · apply (emitInstruction_parallel moving _ t).andThen (fun _ _ same => same)
      intro next next' same
      exact mirrors_ok (same.emitOperand suits label t)

theorem step_parallel (moving : Moving m l l') {t : Token} (admits : m.Admits t.kind) :
    Parallel (Moving m) (step l t) (step l' t) := by
  unfold step
  cases kind : t.kind with
  | blank | comment | groupOpen | groupClose | macroDefinition => exact mirrors_ok moving
  | padRelative count => exact mirrors_ok (moving.advance count)
  | padAbsolute position => exact absurd kind (admits.unfixed position).1
  | retarget position => exact absurd kind (admits.unfixed position).2
  | parentLabel label implied =>
    cases implied with
    | none => exact placeLabel_parallel moving label t
    | some parent =>
      apply (placeLabel_parallel moving parent t).andThen (fun _ _ same => same)
      intro next next' same
      exact placeLabel_parallel same label t
  | childLabel label => exact placeLabel_parallel moving label t
  | subroutineClose label => exact placeLabel_parallel moving label t
  | literalHex value width =>
    apply (emitInstruction_parallel moving _ t).andThen (fun _ _ same => same)
    intro next next' same
    exact emitNumber_parallel same value width t
  | rawHex value width => exact emitNumber_parallel moving value width t
  | rawText data => exact mirrors_ok (moving.emit data t)
  | opcode value => exact emitNumber_parallel moving value .byte t
  | reference r => exact emitReference_parallel moving (admits.modes r kind) t
  | inclusion name => exact mirrors_fail moving _

theorem walk_parallel (moving : Moving m l l') {tokens : List Token} (admits : ∀ t ∈ tokens, m.Admits t.kind) :
    Parallel (Moving m) (Run.each step l tokens) (Run.each step l' tokens) := by
  apply mirrors_each
  · intro s s' t member same
    exact step_parallel same (admits t member)
  · exact moving

theorem resolveRecord_parallel (moved : Moved m l l') {r : Record} (suits : ∀ o, r = .operand o → m.Suits o.mode) :
    Parallel (Moved m) (l.resolveRecord r) (l'.resolveRecord (m.record r)) := by
  unfold resolveRecord
  rw [moved.symbols, Move.resolveIn_record suits]
  cases r.resolveIn l.symbols with
  | ok resolved => exact mirrors_ok ⟨rfl, by simp [moved.records]⟩
  | error f => exact mirrors_fail ⟨rfl, by simp [moved.records]⟩ f

theorem resolveRecords_parallel (moved : Moved m l l') {records : List Record}
    (suits : ∀ o, .operand o ∈ records → m.Suits o.mode) :
    Parallel (Moved m) (l.resolveRecords records) (l'.resolveRecords (records.map m.record)) := by
  induction records generalizing l l' with
  | nil => exact mirrors_ok moved
  | cons r rest ih =>
    have first := resolveRecord_parallel moved (r := r) (fun o same => suits o (same ▸ List.mem_cons_self))
    rw [List.map_cons]
    unfold resolveRecords
    cases ran : l.resolveRecord r with
    | ok next =>
      obtain ⟨next', ran', same⟩ := first.ok ran
      rw [ran']
      exact ih same (fun o member => suits o (List.mem_cons_of_mem r member))
    | error stop =>
      obtain ⟨state', ran', same⟩ := (first.error ran).resolve_left id
      rw [ran']
      refine mirrors_fail ⟨same.symbols, ?_⟩ stop.failure
      simp [same.records]

theorem resolve_parallel (moving : Moving m l l') : Parallel (Moved m) l.resolve l'.resolve := by
  have emptied : Moved m { l with records := #[] } { l' with records := #[] } := ⟨moving.symbols, rfl⟩
  unfold resolve
  rw [moving.records]
  exact resolveRecords_parallel emptied moving.modes

theorem complete_parallel (moving : Moving m l l') {tokens : List Token} (admits : ∀ t ∈ tokens, m.Admits t.kind) :
    Parallel (Moved m) ((Run.each step l tokens).andThen resolve) ((Run.each step l' tokens).andThen resolve) := by
  apply (walk_parallel moving admits).andThen
  · intro s s' same
    exact same.toMoved
  · intro s s' same
    exact resolve_parallel same

end Layout

-- The same record, so far away from the first.
structure Record.Apart (distance : Int) (r r' : Record) : Prop where
  position : r'.position = r.position + distance
  size : r'.size = r.size
  data : r'.data = r.data
  token? : r'.token? = r.token?
  operand : ∀ o, r = .operand o ↔ r' = .operand { o with position := o.position + distance }

-- What is written moves, and all that the program sees stays.
def Move.aside (distance : Int) : Move := ⟨distance, 0, fun _ value => value⟩

namespace Move

variable {distance : Int}

theorem aside_operand (o : Operand) : (aside distance).operand o = { o with position := o.position + distance } := by
  simp [operand, aside]

theorem aside_suits (mode : AddressingMode) : (aside distance).Suits mode := by
  intro o address _
  have same : (o.valueFor address).map ((aside distance).value mode) = o.valueFor address := by
    cases o.valueFor address <;> rfl
  rw [same, aside_operand, show address + (aside distance).seen = address from Int.add_zero address]
  rfl

theorem aside_apart (r : Record) : r.Apart distance ((aside distance).record r) := by
  cases r with
  | bytes position data token => exact ⟨rfl, rfl, rfl, rfl, by simp [record]⟩
  | operand o =>
    unfold record
    dsimp only
    rw [aside_operand]
    refine ⟨rfl, rfl, rfl, rfl, ?_⟩
    intro other
    constructor
    · intro same
      cases same
      rfl
    · intro same
      obtain ⟨position, label, mode, target, token, value⟩ := o
      obtain ⟨position', label', mode', target', token', value'⟩ := other
      simpa using same

end Move

namespace Layout

variable {l l' : Layout}

structure Displaced (distance : Int) (l l' : Layout) : Prop where
  symbols : l'.symbols = l.symbols
  records : List.Forall₂ (Record.Apart distance) l.records.toList l'.records.toList

theorem Moved.displaced {distance : Int} (moved : Moved (.aside distance) l l') : Displaced distance l l' := by
  refine ⟨moved.symbols.trans (Move.table_eq_self rfl), ?_⟩
  rw [moved.records, List.forall₂_map_right_iff, List.forall₂_same]
  exact fun r _ => Move.aside_apart r

-- A program that names no position of its own is laid out for an address as if it stood there: under the target position
-- it fails as it would at the real one, or has the same labels, and the same records at the distance of the two places.
theorem generate_retargeted (l l' : Layout) (declared : l'.symbols.clearAddresses = l.symbols.clearAddresses)
    {position address : Int} {there here target : Token} (thereKind : there.kind = .padAbsolute address)
    (hereKind : here.kind = .padAbsolute position) (targetKind : target.kind = .retarget address) (body : List Token)
    (unfixed : ∀ t ∈ body, ∀ n, t.kind ≠ .padAbsolute n ∧ t.kind ≠ .retarget n) :
    Parallel (Displaced (position - address)) (l.generate (there :: body)) (l'.generate (here :: target :: body)) := by
  let placed : Layout := { l.restart with output := address, offset := 0 }
  let retargeted : Layout := { l'.restart with output := position, offset := address - position }
  have start : Moving (.aside (position - address)) placed retargeted := by
    refine ⟨⟨?_, rfl⟩, ?_, ?_, by simp [placed, restart]⟩
    · rw [Move.table_eq_self rfl]
      exact declared
    · simp [placed, retargeted, Move.aside]
    · simp [placed, retargeted, Move.aside, Layout.target]
  have first : l.generate (there :: body) = (Run.each step placed body).andThen resolve := by
    unfold generate linearize
    rw [each_cons, step, thereKind]
    rfl
  have second : l'.generate (here :: target :: body) = (Run.each step retargeted body).andThen resolve := by
    unfold generate linearize
    rw [each_cons, step, hereKind, andThen_ok, each_cons, step, targetKind]
    rfl
  rw [first, second]
  refine (complete_parallel start ?_).mono (fun _ _ moved => moved.displaced)
  intro t member
  exact ⟨unfixed t member, fun r _ => Move.aside_suits r.mode⟩

-- Written from 0x200 on and meant for 0x40, with a reference in each mode.
theorem generate_retargeted_four_modes :
    let token (kind : TokenKind) : Token := ⟨0, kind, "", ⟨"<input>", 1, 1⟩, none⟩
    let toA (form : ReferenceForm) : Token := token (.reference (form.to (.named "a")))
    let body := [toA .rawZeroPage, toA .literalRelative, token (.childLabel "a"), token (.padRelative 2),
      toA .jumpAlways, toA .rawAbsolute]
    let l : Layout := { loadBase := 0x100, symbols := {} }
    ∃ b b', l.generate (token (.padAbsolute 0x40) :: body) = .ok b ∧
      l.generate (token (.padAbsolute 0x200) :: token (.retarget 0x40) :: body) = .ok b' ∧
      b.records.toList.map (·.position) = [0x40, 0x41, 0x42, 0x45, 0x46, 0x48] ∧
      b.records.toList.map (·.data.toOption) =
        [some [0x43], some [0x80], some [0xff], some [0x40], some [0xff, 0xfb], some [0, 0x43]] ∧
      b.symbols.addresses = [("a", 0x43)] ∧ Displaced 0x1c0 b b' := by
  intro token toA body l
  have there : (token (.padAbsolute 0x40)).kind = .padAbsolute 0x40 := rfl
  have here : (token (.padAbsolute 0x200)).kind = .padAbsolute 0x200 := rfl
  have target : (token (.retarget 0x40)).kind = .retarget 0x40 := rfl
  have unfixed : ∀ t ∈ body, ∀ n, t.kind ≠ .padAbsolute n ∧ t.kind ≠ .retarget n := by
    simp [body, token, toA]
  have made : (l.generate (token (.padAbsolute 0x40) :: body)).toOption.map (fun b =>
      (b.records.toList.map (·.position), b.records.toList.map (·.data.toOption), b.symbols.addresses)) =
        some ([0x40, 0x41, 0x42, 0x45, 0x46, 0x48],
          [some [0x43], some [0x80], some [0xff], some [0x40], some [0xff, 0xfb], some [0, 0x43]], [("a", 0x43)]) := by
    decide +kernel
  obtain ⟨b, ran, found⟩ := Option.map_eq_some_iff.mp made
  obtain ⟨positions, both⟩ := Prod.mk.inj found
  obtain ⟨data, addresses⟩ := Prod.mk.inj both
  have parallel := generate_retargeted l l rfl there here target body unfixed
  obtain ⟨b', ran', displaced⟩ := parallel.ok (eq_ok_of_toOption ran)
  exact ⟨b, b', eq_ok_of_toOption ran, ran', positions, data, addresses, displaced⟩

end Layout

end RuneAsm
