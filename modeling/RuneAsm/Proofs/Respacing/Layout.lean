import Mathlib
import RuneAsm.Image
import RuneAsm.Proofs.Alike
import RuneAsm.Proofs.Laying
import RuneAsm.Proofs.Respacing.Reading

namespace RuneAsm

open Run

-- Programs that agree but for spacing and the labels of inline subroutines are laid out alike: the same bytes at the
-- same places, and the same addresses under the names that count.

variable {σ : String → String} {tables : SymbolTable → SymbolTable → Prop}

structure Operand.Like (σ : String → String) (o o' : Operand) : Prop where
  label : o'.label = σ o.label
  position : o'.position = o.position
  mode : o'.mode = o.mode
  target : o'.target = o.target
  value : o'.value = o.value

theorem Operand.Like.valueFor {o o' : Operand} (same : Operand.Like σ o o') (address : Int) :
    (∃ value, o.valueFor address = .ok value ∧ o'.valueFor address = .ok value) ∨
      ∃ value, o.valueFor address = .error (o.outOfRange value) ∧ o'.valueFor address = .error (o'.outOfRange value) := by
  unfold Operand.valueFor
  rw [same.mode, same.target]
  cases o.mode with
  | relative8 =>
    dsimp only
    split
    · exact .inl ⟨_, rfl, rfl⟩
    · exact .inr ⟨_, rfl, rfl⟩
  | zeroPage =>
    dsimp only
    split
    · exact .inl ⟨_, rfl, rfl⟩
    · exact .inr ⟨_, rfl, rfl⟩
  | relative16 => exact .inl ⟨_, rfl, rfl⟩
  | absolute => exact .inl ⟨_, rfl, rfl⟩

inductive Record.Like (σ : String → String) : Record → Record → Prop where
  | bytes (position : Int) (data : List UInt8) (token token' : Option Token) :
      Record.Like σ (.bytes position data token) (.bytes position data token')
  | operand {o o' : Operand} (same : Operand.Like σ o o') : Record.Like σ (.operand o) (.operand o')

structure Layout.Like (σ : String → String) (tables : SymbolTable → SymbolTable → Prop) (l l' : Layout) : Prop where
  symbols : tables l.symbols l'.symbols
  records : List.Forall₂ (Record.Like σ) l.records.toList l'.records.toList
  output : l'.output = l.output
  offset : l'.offset = l.offset

theorem mapLabel_places {kind : TokenKind} (fixes : ∀ x, Plain x → σ x = x) (regular : kind.Regular) :
    (kind.mapLabel σ).places = kind.places.map σ := by
  cases kind with
  | parentLabel label implied =>
    cases implied with
    | none => rfl
    | some parent => simp [TokenKind.mapLabel, TokenKind.places, fixes parent (regular.2 parent rfl)]
  | reference r =>
    rw [mapLabel_reference]
    rfl
  | _ => rfl

namespace Layout

variable {l l' : Layout} {t t' : Token} {tokens tokens' : List Token}

theorem emit_like (like : Like σ tables l l') (data : List UInt8) (t t' : Token) :
    Like σ tables (l.emit data t) (l'.emit data t') := by
  refine ⟨like.symbols, ?_, ?_, like.offset⟩
  · simpa [emit, like.output] using List.rel_append like.records (.cons (.bytes l.output data (some t) (some t')) .nil)
  · simp [emit, like.output]

theorem emitOperand_like (like : Like σ tables l l') (label : String) (mode : AddressingMode) (t t' : Token) :
    Like σ tables (l.emitOperand label mode t) (l'.emitOperand (σ label) mode t') := by
  have operand : Operand.Like σ ⟨l.output, label, mode, l.target, t, none⟩
      ⟨l'.output, σ label, mode, l'.target, t', none⟩ :=
    ⟨rfl, like.output, rfl, by simp [target, like.output, like.offset], rfl⟩
  refine ⟨like.symbols, ?_, ?_, like.offset⟩
  · simpa [emitOperand] using List.rel_append like.records (.cons (.operand operand) .nil)
  · simp [emitOperand, like.output]

theorem placeLabel_alike (tracks : Tracks σ tables) (like : Like σ tables l l') (name : String)
    (known : name ∈ l.symbols.names ∨ Plain name) :
    Alike (fun next next' => Like σ tables next next' ∧ l.symbols.names ⊆ next.symbols.names) (l.placeLabel name t)
      (l'.placeLabel (σ name) t') := by
  have target : l'.target = l.target := by simp [Layout.target, like.output, like.offset]
  unfold placeLabel
  rw [target]
  rcases tracks.place _ _ like.symbols name known l.target t.location t'.location with
    ⟨s, s', failed, failed'⟩ | ⟨symbols, symbols', placed, placed', next⟩
  · rw [failed, failed']
    exact alike_fail rfl
  · rw [placed, placed']
    exact ⟨⟨next, like.records, like.output, like.offset⟩, SymbolTable.names_place placed⟩

theorem placeLabels_alike (tracks : Tracks σ tables) (like : Like σ tables l l') (names : List String)
    (known : ∀ name ∈ names, name ∈ l.symbols.names ∨ Plain name) :
    Alike (fun next next' => Like σ tables next next' ∧ l.symbols.names ⊆ next.symbols.names)
      (Run.each (fun l name => l.placeLabel name t) l names)
      (Run.each (fun l name => l.placeLabel name t') l' (names.map σ)) := by
  induction names generalizing l l' with
  | nil => exact ⟨like, fun _ member => member⟩
  | cons name rest ih =>
    rw [List.map_cons, each_cons, each_cons]
    refine (placeLabel_alike tracks like name (known name (by simp))).andThen ?_
    rintro next next' ⟨after, grown⟩
    have knownLater : ∀ x ∈ rest, x ∈ next.symbols.names ∨ Plain x := by
      intro x member
      exact (known x (List.mem_cons_of_mem _ member)).imp_left (grown ·)
    exact (ih after knownLater).mono fun _ _ _ _ reached => ⟨reached.1, fun _ member => reached.2 (grown member)⟩

theorem emitReference_alike {r r' : Reference} (like : Like σ tables l l') (regular : r.Regular) (mode : r'.mode = r.mode)
    (instruction : r'.instruction = r.instruction) (label : r'.target.label? = r.target.label?.map σ) :
    Alike (Like σ tables) (l.emitReference r t) (l'.emitReference r' t') := by
  obtain ⟨name, target⟩ := regular.label?_eq
  rw [target] at label
  unfold emitReference
  rw [label, target, instruction, mode, regular.instruction_eq]
  cases stands : r.form.instruction with
  | none => exact emitOperand_like like name r.mode t t'
  | some mnemonic =>
    obtain ⟨byte, known⟩ := instruction_known stands
    dsimp only [Option.map_some]
    rw [emitInstruction_ok l known, emitInstruction_ok l' known]
    exact emitOperand_like (emit_like like [byte] t t') name r.mode t t'

-- Tokens that place no label write the same bytes on both sides.
theorem step_like (like : Like σ tables l l') (kind' : t'.kind = t.kind.mapLabel σ) (regular : t.kind.Regular)
    (noInclusion : ∀ name, t.kind ≠ .inclusion name) (placesNone : t.kind.places = []) :
    Alike (Like σ tables) (step l t) (step l' t') := by
  unfold step
  cases kind : t.kind with
  | reference r =>
    rw [kind] at regular kind'
    rw [kind', mapLabel_reference]
    exact emitReference_alike like regular rfl rfl (Target.mapLabel_label? σ r.target)
  | padRelative count =>
    rw [kind] at kind'
    simp only [kind', TokenKind.mapLabel]
    exact ⟨like.symbols, like.records, congrArg (· + count) like.output, like.offset⟩
  | padAbsolute position =>
    rw [kind] at kind'
    simp only [kind', TokenKind.mapLabel]
    exact ⟨like.symbols, like.records, rfl, rfl⟩
  | retarget position =>
    rw [kind] at kind'
    simp only [kind', TokenKind.mapLabel]
    exact ⟨like.symbols, like.records, like.output, congrArg (position - ·) like.output⟩
  | literalHex value width =>
    rw [kind] at regular kind'
    obtain ⟨byte, known⟩ := literalInstruction_known width
    obtain ⟨data, bytes⟩ := Width.bytesOf_ok regular
    simp only [kind', TokenKind.mapLabel]
    rw [emitInstruction_ok l known, emitInstruction_ok l' known]
    simp only [andThen_ok, emitNumber, bytes]
    exact emit_like (emit_like like [byte] t t') data t t'
  | rawHex value width =>
    rw [kind] at regular kind'
    obtain ⟨data, bytes⟩ := Width.bytesOf_ok regular
    simp only [kind', TokenKind.mapLabel, emitNumber, bytes]
    exact emit_like like data t t'
  | opcode value =>
    rw [kind] at regular kind'
    have fits : Width.Fits .byte value := regular
    obtain ⟨data, bytes⟩ := Width.bytesOf_ok fits
    simp only [kind', TokenKind.mapLabel, emitNumber, bytes]
    exact emit_like like data t t'
  | rawText data =>
    rw [kind] at kind'
    simp only [kind', TokenKind.mapLabel]
    exact emit_like like data t t'
  | inclusion name => exact absurd kind (noInclusion name)
  | parentLabel label implied => simp [kind, TokenKind.places] at placesNone
  | childLabel label => simp [kind, TokenKind.places] at placesNone
  | subroutineClose label => simp [kind, TokenKind.places] at placesNone
  | _ =>
    rw [kind] at kind'
    simp only [kind', TokenKind.mapLabel]
    exact like

theorem step_alike (tracks : Tracks σ tables) (like : Like σ tables l l') (kind' : t'.kind = t.kind.mapLabel σ)
    (regular : t.kind.Regular) (noInclusion : ∀ name, t.kind ≠ .inclusion name)
    (known : ∀ label ∈ t.kind.closerLabel?, label ∈ l.symbols.names) :
    Alike (fun next next' => Like σ tables next next' ∧ l.symbols.names ⊆ next.symbols.names) (step l t) (step l' t') := by
  by_cases placesNone : t.kind.places = []
  · refine (step_like like kind' regular noInclusion placesNone).mono ?_
    intro next next' stepped _ after
    obtain ⟨same, stepped', moves⟩ := step_moves_cursor l regular noInclusion placesNone
    rw [stepped] at stepped'
    cases stepped'
    exact ⟨after, fun _ member => moves.symbols ▸ member⟩
  · have places' : t'.kind.places = t.kind.places.map σ := by rw [kind', mapLabel_places tracks.plain regular]
    rw [step_places l placesNone, step_places l' (by simpa [places'] using placesNone), places']
    refine placeLabels_alike tracks like _ ?_
    intro name member
    rcases TokenKind.places_cases regular member with plain | kind
    · exact .inr plain
    · exact .inl (known name (by rw [kind]; rfl))

theorem step_spacing (l : Layout) (t : Token) (spacing : t.kind.isSpacing = true) : step l t = .ok l := by
  unfold step
  cases kind : t.kind with
  | blank | comment => rfl
  | _ => exact absurd spacing (by simp [kind, TokenKind.isSpacing])

-- The labels of the closing braces to come are declared, so none of them enters the table as a named one.
theorem linearize_alike (tracks : Tracks σ tables)
    (symbols : tables l.symbols.clearAddresses l'.symbols.clearAddresses) (base : l'.loadBase = l.loadBase)
    {counts : Token → Bool} (idle : ∀ l t, counts t = false → step l t = .ok l)
    (agree : List.Forall₂ (fun t t' : Token => t'.kind = t.kind.mapLabel σ) (tokens.filter counts)
      (tokens'.filter counts))
    (usual : ∀ t ∈ tokens, t.kind.Regular ∧ ∀ name, t.kind ≠ .inclusion name)
    (declared : ∀ label ∈ closerLabels tokens, label ∈ l.symbols.names) :
    Alike (Like σ tables) (l.linearize tokens) (l'.linearize tokens') := by
  have start : Like σ tables l.restart l'.restart := ⟨symbols, .nil, base, rfl⟩
  have names : l.restart.symbols.names = l.symbols.names := by
    simp [restart, SymbolTable.clearAddresses, SymbolTable.names, Function.comp_def]
  refine (alike_each (fun rest _ next next' => Like σ tables next next' ∧
    (∀ t ∈ rest, t.kind.Regular ∧ ∀ name, t.kind ≠ .inclusion name) ∧
    ∀ label ∈ closerLabels rest, label ∈ next.symbols.names) ?_ ?_ ?_ agree ⟨start, usual, names ▸ declared⟩).mono
    fun _ _ _ _ reached => reached.1
  · rintro t rest rest' next next' passed ⟨like, usual, known⟩
    refine ⟨next, idle next t passed, like, ?_, ?_⟩
    · exact fun u member => usual u (List.mem_cons_of_mem _ member)
    · exact fun label member => known label (by rw [closerLabels_cons]; exact List.mem_append_right _ member)
  · rintro t' rest rest' next next' passed before
    exact ⟨next', idle next' t' passed, before⟩
  · rintro t t' rest rest' next next' kind' ⟨like, usual, known⟩
    obtain ⟨regular, noInclusion⟩ := usual t (by simp)
    rw [closerLabels_cons] at known
    refine (step_alike tracks like kind' regular noInclusion ?_).mono ?_
    · intro label closes
      exact known label (List.mem_append_left _ (Option.mem_toList.mpr closes))
    · rintro last last' _ _ ⟨after, grown⟩
      refine ⟨after, fun u member => usual u (List.mem_cons_of_mem _ member), ?_⟩
      exact fun label member => grown (known label (List.mem_append_right _ member))

theorem resolveRecord_alike (tracks : Tracks σ tables) (like : Like σ tables l l') {record record' : Record}
    (same : Record.Like σ record record') : Alike (Like σ tables) (l.resolveRecord record) (l'.resolveRecord record') := by
  have push {r r' : Record} (same : Record.Like σ r r') :
      Like σ tables { l with records := l.records.push r } { l' with records := l'.records.push r' } := by
    refine ⟨like.symbols, ?_, like.output, like.offset⟩
    simpa using List.rel_append like.records (.cons same .nil)
  unfold resolveRecord
  cases same with
  | bytes position data token token' => exact push (.bytes position data token token')
  | @operand o o' same =>
    simp only [Record.resolveIn, Operand.resolveIn]
    rw [same.label, tracks.addressOf? _ _ like.symbols]
    cases l.symbols.addressOf? o.label with
    | none => exact alike_fail rfl
    | some address =>
      dsimp only
      rcases same.valueFor address with ⟨value, given, given'⟩ | ⟨value, failed, failed'⟩
      · simp only [given, given', Operand.resolve, same.value]
        cases o.value with
        | none => exact push (.operand ⟨same.label, same.position, same.mode, same.target, rfl⟩)
        | some twice => exact alike_fail rfl
      · rw [failed, failed']
        exact alike_fail rfl

theorem resolveRecords_alike (tracks : Tracks σ tables) (like : Like σ tables l l') {records records' : List Record}
    (same : List.Forall₂ (Record.Like σ) records records') :
    Alike (Like σ tables) (l.resolveRecords records) (l'.resolveRecords records') := by
  induction same generalizing l l' with
  | nil => exact like
  | cons first _ ih =>
    unfold resolveRecords
    rcases (resolveRecord_alike tracks like first).cases with
      ⟨next, next', ran, ran', after⟩ | ⟨stop, stop', ran, ran', kinds⟩
    · rw [ran, ran']
      exact ih after
    · rw [ran, ran']
      exact kinds

theorem resolve_alike (tracks : Tracks σ tables) (like : Like σ tables l l') : Alike (Like σ tables) l.resolve l'.resolve := by
  have emptied : Like σ tables { l with records := #[] } { l' with records := #[] } :=
    ⟨like.symbols, .nil, like.output, like.offset⟩
  exact resolveRecords_alike tracks emptied like.records

end Layout

theorem Record.Like.data {record record' : Record} {data : List UInt8} (like : Record.Like σ record record')
    (known : record.data = .ok data) : record'.data = .ok data := by
  cases like with
  | bytes => exact known
  | @operand o o' same =>
    have size : o'.size = o.size := by rw [Operand.size, same.mode, Operand.size]
    simp only [Record.data, Operand.data] at known ⊢
    rw [same.value, size]
    cases value : o.value with
    | none =>
      rw [value] at known
      cases known
    | some n =>
      rw [value] at known
      exact known

theorem Record.Like.position {record record' : Record} (like : Record.Like σ record record') :
    record'.position = record.position := by
  cases like with
  | bytes => rfl
  | operand same => exact same.position

theorem Sink.emit_alike (s : Sink) (loadBase : Int) {records records' : List Record}
    (same : List.Forall₂ (Record.Like σ) records records')
    (known : ∀ record ∈ records, ∃ data, record.data = .ok data) :
    Alike (fun e e' => e' = e) (s.emit loadBase records) (s.emit loadBase records') := by
  unfold Sink.emit
  generalize (⟨s, 0⟩ : Emission) = e
  induction same generalizing e with
  | nil => rfl
  | @cons record record' rest rest' first _ ih =>
    obtain ⟨data, here⟩ := known record (by simp)
    have later := ih fun other member => known other (List.mem_cons_of_mem _ member)
    have stepped : Alike (fun e e' => e' = e) (Emission.step loadBase e record) (Emission.step loadBase e record') := by
      unfold Emission.step
      rw [here, first.data here, first.position]
      cases data with
      | nil => rfl
      | cons byte bytes =>
        dsimp only
        split
        · exact alike_fail rfl
        · split
          · exact alike_fail rfl
          · rfl
    rw [each_cons, each_cons]
    refine stepped.andThen ?_
    intro next next' equal
    rw [equal]
    exact later next

end RuneAsm
