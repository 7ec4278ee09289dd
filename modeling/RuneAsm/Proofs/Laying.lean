import Mathlib
import RuneAsm.Proofs.Cursor
import RuneAsm.Proofs.Ends
import RuneAsm.Proofs.LabelTable

namespace RuneAsm

open Run

-- The layout of an orderly program. Each label gets the address at which the walk over the tokens meets it, each
-- operand waits until then and is filled in once, and nothing but a label of the program itself can be missing or
-- placed twice.

theorem byteOf_ok {value : Int} (fits : Width.Fits .byte value) : ∃ data, byteOf value = .ok data :=
  ⟨_, if_pos fits⟩

theorem shortOf_ok {value : Int} (fits : Width.Fits .short value) : ∃ data, shortOf value = .ok data :=
  ⟨_, if_pos fits⟩

theorem Width.bytesOf_ok {width : Width} {value : Int} (fits : width.Fits value) :
    ∃ data, width.bytesOf value = .ok data := by
  cases width with
  | byte => exact byteOf_ok fits
  | short => exact shortOf_ok fits

theorem length_byteOf {value : Int} {data : List UInt8} (given : byteOf value = .ok data) : data.length = 1 := by
  unfold byteOf at given
  split at given
  · cases given
    rfl
  · cases given

theorem length_shortOf {value : Int} {data : List UInt8} (given : shortOf value = .ok data) : data.length = 2 := by
  unfold shortOf at given
  split at given
  · cases given
    rfl
  · cases given

theorem Width.length_bytesOf {width : Width} {value : Int} {data : List UInt8} (given : width.bytesOf value = .ok data) :
    data.length = width.bytes := by
  cases width with
  | byte => exact length_byteOf given
  | short => exact length_shortOf given

namespace Operand

variable {o : Operand} {symbols : SymbolTable} {address value : Int}

-- A value that an address gives has bytes of the size that the mode asks for.
theorem data_of_valueFor (found : o.valueFor address = .ok value) (filled : o.value = some value) :
    ∃ data, o.data = .ok data := by
  unfold data
  simp only [filled]
  unfold size
  cases mode : o.mode with
  | relative8 =>
    simp only [valueFor, mode] at found
    split at found
    · cases found
      exact byteOf_ok ⟨Int.emod_nonneg _ (by decide), Int.emod_lt_of_pos _ (by decide)⟩
    · cases found
  | zeroPage =>
    simp only [valueFor, mode] at found
    split at found
    · rename_i inPage
      cases found
      exact byteOf_ok ⟨inPage.1, by omega⟩
    · cases found
  | relative16 =>
    simp only [valueFor, mode] at found
    cases found
    exact shortOf_ok ⟨Int.emod_nonneg _ (by decide), Int.emod_lt_of_pos _ (by decide)⟩
  | absolute =>
    simp only [valueFor, mode] at found
    cases found
    exact shortOf_ok ⟨Int.emod_nonneg _ (by decide), Int.emod_lt_of_pos _ (by decide)⟩

theorem valueFor_error {f : Failure} (failed : o.valueFor address = .error f) : ∃ value, f = o.outOfRange value := by
  unfold valueFor at failed
  dsimp only at failed
  split at failed
  · split at failed <;> cases failed
    exact ⟨_, rfl⟩
  · cases failed
  · split at failed <;> cases failed
    exact ⟨_, rfl⟩
  · cases failed

theorem resolveIn_cases (symbols : SymbolTable) (waits : o.value = none) :
    (∃ address value, symbols.addressOf? o.label = some address ∧ o.valueFor address = .ok value ∧
      o.resolveIn symbols = .ok { o with value := some value }) ∨
    symbols.addressOf? o.label = none ∧ o.resolveIn symbols = .error (o.undefined symbols) ∨
    ∃ address f, symbols.addressOf? o.label = some address ∧ o.valueFor address = .error f ∧
      o.resolveIn symbols = .error f := by
  unfold resolveIn
  cases found : symbols.addressOf? o.label with
  | none => exact .inr (.inl ⟨rfl, rfl⟩)
  | some address =>
    cases given : o.valueFor address with
    | ok value => exact .inl ⟨address, value, rfl, given, by simp [given, resolve, waits]⟩
    | error f => exact .inr (.inr ⟨address, f, rfl, given, by simp [given]⟩)

end Operand

-- The label of which a cause says that it has two places or none.
def Cause.misplaced? : Cause → Option String
  | .duplicateLabel name _ => some name
  | .undefinedLabel name _ _ => some name
  | _ => none

theorem TokenKind.places_cases {kind : TokenKind} {name : String} (regular : kind.Regular)
    (member : name ∈ kind.places) : Plain name ∨ kind = .subroutineClose name := by
  cases kind with
  | parentLabel label implied =>
    rcases List.mem_append.mp member with parent | own
    · exact .inl (regular.2 name (Option.mem_toList.mp parent))
    · rw [List.mem_singleton.mp own]
      exact .inl regular.1
  | childLabel label =>
    rw [List.mem_singleton.mp member]
    exact .inl regular
  | subroutineClose label =>
    rw [List.mem_singleton.mp member]
    exact .inr rfl
  | _ => cases member

-- A record that a token has put there: its bytes, or the operand of its reference, which has no value yet.
def Record.Awaits (t : Token) : Record → Prop
  | .bytes _ _ token => token = some t
  | .operand o => o.token = t ∧ o.value = none ∧ ∃ r, t.kind = .reference r ∧ r.target.label? = some o.label

namespace Layout

variable {l next start last : Layout} {c : Cursor} {t : Token} {name label : String} {tokens done : List Token}

theorem emitInstruction_ok (l : Layout) {mnemonic : String} {byte : UInt8}
    (known : Opcode.ofMnemonic? mnemonic = some byte) (t : Token) :
    l.emitInstruction mnemonic t = .ok (l.emit [byte] t) := by
  simp [emitInstruction, known]

-- The instructions that literals and references stand for are in the instruction set.
theorem literalInstruction_known (width : Width) : ∃ byte, Opcode.ofMnemonic? (literalInstruction width) = some byte := by
  cases width <;> exact Option.isSome_iff_exists.mp (by decide)

theorem instruction_known {form : ReferenceForm} {mnemonic : String} (stands : form.instruction = some mnemonic) :
    ∃ byte, Opcode.ofMnemonic? mnemonic = some byte := by
  cases form <;> cases stands <;> exact Option.isSome_iff_exists.mp (by decide)

structure At (c : Cursor) (l : Layout) : Prop where
  output : l.output = c.output
  target : l.target = c.target

-- Both positions go on by as many bytes, and records are added.
structure Shifts (n : Nat) (new : List Record) (l next : Layout) : Prop where
  output : next.output = l.output + n
  target : next.target = l.target + n
  symbols : next.symbols = l.symbols
  records : next.records.toList = l.records.toList ++ new

theorem Shifts.trans {m n : Nat} {new more : List Record} {middle : Layout} (first : Shifts m new l middle)
    (second : Shifts n more middle next) : Shifts (m + n) (new ++ more) l next := by
  refine ⟨?_, ?_, second.symbols.trans first.symbols, ?_⟩
  · rw [second.output, first.output]
    omega
  · rw [second.target, first.target]
    omega
  · rw [second.records, first.records, List.append_assoc]

theorem emit_shifts (l : Layout) (data : List UInt8) (t : Token) :
    Shifts data.length [.bytes l.output data (some t)] l (l.emit data t) := by
  refine ⟨rfl, ?_, rfl, by simp [emit]⟩
  unfold target emit
  dsimp only
  omega

theorem emitOperand_shifts (l : Layout) (label : String) (mode : AddressingMode) (t : Token) :
    Shifts mode.width [.operand ⟨l.output, label, mode, l.target, t, none⟩] l (l.emitOperand label mode t) := by
  refine ⟨rfl, ?_, rfl, by simp [emitOperand]⟩
  unfold target emitOperand
  dsimp only
  omega

theorem emitNumber_shifts (l : Layout) {value : Int} {width : Width} (fits : width.Fits value) (t : Token) :
    ∃ data next, l.emitNumber value width t = .ok next ∧
      Shifts width.bytes [.bytes l.output data (some t)] l next := by
  obtain ⟨data, bytes⟩ := Width.bytesOf_ok fits
  refine ⟨data, l.emit data t, by simp [emitNumber, bytes], ?_⟩
  rw [← Width.length_bytesOf bytes]
  exact l.emit_shifts data t

-- What a token that places no label does to a layout: it moves it as it moves the cursor and adds records of its own.
structure Moves (c : Cursor) (t : Token) (l next : Layout) : Prop where
  position : At (c.pass t) next
  symbols : next.symbols = l.symbols
  records : ∃ new, next.records.toList = l.records.toList ++ new ∧
    new.filterMap Record.operand? = (c.operand? t).toList ∧ ∀ record ∈ new, record.Awaits t

theorem Shifts.moves {n : Nat} {new : List Record} (shifts : Shifts n new l next) (here : At c l)
    (pass : c.pass t = ⟨c.output + n, c.target + n⟩) (operands : new.filterMap Record.operand? = (c.operand? t).toList)
    (awaits : ∀ record ∈ new, record.Awaits t) : Moves c t l next := by
  refine ⟨⟨?_, ?_⟩, shifts.symbols, new, shifts.records, operands, awaits⟩
  · rw [shifts.output, here.output, pass]
  · rw [shifts.target, here.target, pass]

theorem emitReference_moves (here : At c l) {r : Reference} (regular : r.Regular) (kind : t.kind = .reference r) :
    ∃ next, l.emitReference r t = .ok next ∧ Moves c t l next := by
  obtain ⟨label, target⟩ := regular.label?_eq
  unfold emitReference
  rw [target]
  cases stands : r.instruction with
  | none =>
    refine ⟨_, rfl, (l.emitOperand_shifts label r.mode t).moves here ?_ ?_ ?_⟩
    · simp [Cursor.pass, kind, TokenKind.size, stands]
    · simp [Cursor.operand?, Record.operand?, kind, target, stands, here.output, here.target]
    · simp [Record.Awaits, kind, target]
  | some mnemonic =>
    obtain ⟨byte, known⟩ := instruction_known (regular.instruction_eq ▸ stands)
    have instruction := l.emit_shifts [byte] t
    dsimp only
    rw [emitInstruction_ok l known, andThen_ok]
    refine ⟨_, rfl, (instruction.trans ((l.emit [byte] t).emitOperand_shifts label r.mode t)).moves here ?_ ?_ ?_⟩
    · simp [Cursor.pass, kind, TokenKind.size, stands]
    · simp [Cursor.operand?, List.filterMap_cons, Record.operand?, kind, target, stands, instruction.output,
        instruction.target, here.output, here.target]
    · simp [Record.Awaits, kind, target]

theorem step_moves (here : At c l) (regular : t.kind.Regular) (noInclusion : ∀ name, t.kind ≠ .inclusion name)
    (placesNone : t.kind.places = []) : ∃ next, step l t = .ok next ∧ Moves c t l next := by
  have output := here.output
  have target := here.target
  unfold step
  cases kind : t.kind with
  | blank | comment | groupOpen | groupClose | macroDefinition =>
    refine ⟨l, rfl, ⟨?_, ?_⟩, rfl, [], by simp [Cursor.operand?, kind]⟩
    · simp [Cursor.pass, kind, TokenKind.size, output]
    · simp [Cursor.pass, kind, TokenKind.size, target]
  | padRelative count =>
    refine ⟨_, rfl, ⟨?_, ?_⟩, rfl, [], by simp [Cursor.operand?, kind]⟩
    · simp [Cursor.pass, kind, output]
    · unfold Layout.target at target ⊢
      simp only [Cursor.pass, kind]
      omega
  | padAbsolute position =>
    exact ⟨_, rfl, ⟨by simp [Cursor.pass, kind], by simp [Cursor.pass, kind, Layout.target]⟩, rfl, [],
      by simp [Cursor.operand?, kind]⟩
  | retarget position =>
    exact ⟨_, rfl, ⟨by simp [Cursor.pass, kind, output], by simp [Cursor.pass, kind, Layout.target]⟩, rfl, [],
      by simp [Cursor.operand?, kind]⟩
  | parentLabel label implied => simp [TokenKind.places, kind] at placesNone
  | childLabel label => simp [TokenKind.places, kind] at placesNone
  | subroutineClose label => simp [TokenKind.places, kind] at placesNone
  | literalHex value width =>
    rw [kind] at regular
    obtain ⟨byte, known⟩ := literalInstruction_known width
    obtain ⟨data, next, number, shifts⟩ := emitNumber_shifts (l.emit [byte] t) regular t
    dsimp only
    rw [emitInstruction_ok l known, andThen_ok]
    refine ⟨next, number, ((l.emit_shifts [byte] t).trans shifts).moves here ?_ ?_ (by simp [Record.Awaits])⟩
    · simp [Cursor.pass, kind, TokenKind.size]
    · simp [Cursor.operand?, Record.operand?, kind]
  | rawHex value width =>
    rw [kind] at regular
    obtain ⟨data, next, number, shifts⟩ := emitNumber_shifts l regular t
    refine ⟨next, number, shifts.moves here ?_ ?_ (by simp [Record.Awaits])⟩
    · simp [Cursor.pass, kind, TokenKind.size]
    · simp [Cursor.operand?, Record.operand?, kind]
  | opcode value =>
    have fits : Width.Fits .byte value := by simpa [kind, TokenKind.Regular] using regular
    obtain ⟨data, next, number, shifts⟩ := emitNumber_shifts l fits t
    refine ⟨next, number, shifts.moves here ?_ ?_ (by simp [Record.Awaits])⟩
    · simp [Cursor.pass, kind, TokenKind.size, Width.bytes]
    · simp [Cursor.operand?, Record.operand?, kind]
  | rawText data =>
    refine ⟨_, rfl, (l.emit_shifts data t).moves here ?_ ?_ (by simp [Record.Awaits])⟩
    · simp [Cursor.pass, kind, TokenKind.size]
    · simp [Cursor.operand?, Record.operand?, kind]
  | reference r =>
    rw [kind] at regular
    exact emitReference_moves here regular kind
  | inclusion name => exact absurd kind (noInclusion name)

-- A layout stands where its own positions are.
def cursor (l : Layout) : Cursor := ⟨l.output, l.target⟩

theorem step_moves_cursor (l : Layout) (regular : t.kind.Regular) (noInclusion : ∀ name, t.kind ≠ .inclusion name)
    (placesNone : t.kind.places = []) : ∃ next, step l t = .ok next ∧ Moves l.cursor t l next :=
  step_moves ⟨rfl, rfl⟩ regular noInclusion placesNone

-- The operand of a reference is among the records.
theorem Moves.operand (moves : Moves c t l next) (regular : t.kind.Regular) {r : Reference} (kind : t.kind = .reference r) :
    ∃ o, .operand o ∈ next.records.toList ∧ o.token = t := by
  obtain ⟨new, records, operands, _⟩ := moves.records
  rw [kind] at regular
  obtain ⟨label, target⟩ := Reference.Regular.label?_eq regular
  obtain ⟨o, found, owner⟩ : ∃ o, c.operand? t = some o ∧ o.token = t := by simp [Cursor.operand?, kind, target]
  have member : o ∈ new.filterMap Record.operand? := by simp [operands, found]
  obtain ⟨record, there, same⟩ := List.mem_filterMap.mp member
  cases record with
  | bytes => cases same
  | operand other =>
    cases same
    exact ⟨o, by rw [records]; exact List.mem_append_right _ there, owner⟩

theorem step_places (l : Layout) (places : t.kind.places ≠ []) :
    step l t = Run.each (fun l name => l.placeLabel name t) l t.kind.places := by
  have one (label : String) : Run.each (fun l name => l.placeLabel name t) l [label] = l.placeLabel label t := by
    simp only [each_cons, each_nil]
    cases l.placeLabel label t <;> rfl
  unfold step
  cases kind : t.kind with
  | parentLabel label implied =>
    cases implied with
    | none => exact (one label).symm
    | some parent =>
      simp only [TokenKind.places, Option.toList_some, List.singleton_append, each_cons, each_nil]
      cases l.placeLabel parent t with
      | error stop => rfl
      | ok next => cases placed : next.placeLabel label t <;> simp [placed]
  | childLabel label => exact (one label).symm
  | subroutineClose label => exact (one label).symm
  | _ => simp [TokenKind.places, kind] at places

-- The labels of a token all get the address at which the token stands.
theorem placeLabels_ends (l : Layout) (t : Token) (names : List String) :
    Ends (fun next => ∃ symbols, next = { l with symbols } ∧
        (names.Nodup ∧ ∀ x ∈ names, l.symbols.addressOf? x = none) ∧
        ∀ x a, symbols.addressOf? x = some a ↔ l.symbols.addressOf? x = some a ∨ x ∈ names ∧ l.target = a)
      (fun f => ∃ x ∈ names, (∃ first, f = .report ⟨.duplicateLabel x first, some t.location, none⟩) ∧
        (names.Nodup → ∃ a, l.symbols.addressOf? x = some a))
      (Run.each (fun l name => l.placeLabel name t) l names) := by
  induction names generalizing l with
  | nil => exact ⟨l.symbols, rfl, by simp, by simp⟩
  | cons name rest ih =>
    rw [each_cons]
    unfold placeLabel
    rcases SymbolTable.place_cases l.symbols name l.target t.location with
      ⟨present, earlier, failed⟩ | ⟨absent, symbols, placed, addresses⟩
    · rw [failed]
      exact ⟨name, by simp, ⟨_, rfl⟩, fun _ => present⟩
    · rw [placed]
      refine (ih { l with symbols }).mono ?_ ?_
      · rintro next ⟨later, rfl, ⟨separate, unplaced⟩, all⟩
        have others : ∀ x ∈ rest, x ≠ name ∧ l.symbols.addressOf? x = none := by
          intro x inRest
          have none := unplaced x inRest
          rw [addresses] at none
          split at none
          · cases none
          · rename_i other
            exact ⟨other, none⟩
        refine ⟨later, rfl, ⟨List.nodup_cons.mpr ⟨fun again => (others name again).1 rfl, separate⟩, ?_⟩, ?_⟩
        · intro x member
          rcases List.mem_cons.mp member with rfl | inRest
          · exact absent
          · exact (others x inRest).2
        · intro x a
          rw [all, addresses]
          by_cases same : x = name
          · subst same
            simp [absent, target]
          · simp [same, target]
      · rintro f ⟨x, inRest, report, twice⟩
        refine ⟨x, List.mem_cons_of_mem _ inRest, report, ?_⟩
        intro nodup
        obtain ⟨notIn, restNodup⟩ := List.nodup_cons.mp nodup
        obtain ⟨a, found⟩ := twice restNodup
        have other : x ≠ name := by
          rintro rfl
          exact notIn inRest
        rw [addresses, if_neg other] at found
        exact ⟨a, found⟩

-- The address of a label is the one at which the walk meets the token that places it.
def Placed (start : Layout) (tokens : List Token) (name : String) (address : Int) : Prop :=
  ∃ front t back l, tokens = front ++ t :: back ∧ Run.each step start front = .ok l ∧ name ∈ t.kind.places ∧
    l.target = address

-- A token gives all its names one address.
theorem Placed.together {address : Int} (placed : Placed start tokens name address) :
    ∃ t ∈ tokens, name ∈ t.kind.places ∧ ∀ other ∈ t.kind.places, Placed start tokens other address := by
  obtain ⟨front, t, back, l, parts, walked, places, target⟩ := placed
  exact ⟨t, by simp [parts], places, fun other too => ⟨front, t, back, l, parts, walked, too, target⟩⟩

structure Laid (start : Layout) (done : List Token) (l : Layout) : Prop where
  reached : Run.each step start done = .ok l
  records : ∀ record ∈ l.records.toList, ∃ t ∈ done, record.Awaits t
  operands : ∀ t ∈ done, ∀ r, t.kind = .reference r → ∃ o, .operand o ∈ l.records.toList ∧ o.token = t
  addresses : ∀ name a, l.symbols.addressOf? name = some a ↔ Placed start done name a

theorem Laid.waits (laid : Laid start done l) : ∀ o, .operand o ∈ l.records.toList → o.value = none := by
  intro o member
  obtain ⟨t, _, _, waits, _⟩ := laid.records _ member
  exact waits

theorem Laid.exists_placed (laid : Laid start done l) (member : t ∈ done) (places : name ∈ t.kind.places) :
    ∃ address, Placed start done name address := by
  obtain ⟨front, back, parts⟩ := List.append_of_mem member
  have reached := laid.reached
  rw [parts, each_append] at reached
  obtain ⟨middle, walked, _⟩ := andThen_eq_ok reached
  exact ⟨middle.target, front, t, back, middle, parts, walked, places, rfl⟩

theorem reached_step (reached : Run.each step start done = .ok l) (stepped : step l t = .ok next) :
    Run.each step start (done ++ [t]) = .ok next := by
  rw [each_append, reached, andThen_ok, each_cons, stepped]
  rfl

theorem placed_step (reached : Run.each step start done = .ok l) (name : String) (a : Int) :
    Placed start (done ++ [t]) name a ↔ Placed start done name a ∨ name ∈ t.kind.places ∧ l.target = a := by
  constructor
  · rintro ⟨front, u, back, middle, split, walked, places, address⟩
    rcases List.eq_nil_or_concat' back with rfl | ⟨back, last, rfl⟩
    · obtain ⟨rfl, rfl⟩ : done = front ∧ t = u := by simpa using split
      rw [reached] at walked
      cases walked
      exact .inr ⟨places, address⟩
    · obtain ⟨shorter, _⟩ := List.append_inj' (split.trans (List.append_assoc front (u :: back) [last]).symm) rfl
      exact .inl ⟨front, u, back, middle, shorter, walked, places, address⟩
  · rintro (⟨front, u, back, middle, rfl, walked, places, address⟩ | ⟨places, address⟩)
    · exact ⟨front, u, back ++ [t], middle, by simp, walked, places, address⟩
    · exact ⟨done, t, [], l, rfl, reached, places, address⟩

theorem step_laid (laid : Laid start done l) (regular : t.kind.Regular)
    (noInclusion : ∀ name, t.kind ≠ .inclusion name)
    (single : ∀ label, t.kind = .subroutineClose label → ∀ u ∈ done, label ∉ u.kind.places) :
    Ends (Laid start (done ++ [t])) (fun f => ∃ name first, Plain name ∧
      f = .report ⟨.duplicateLabel name first, some t.location, none⟩) (step l t) := by
  by_cases places : t.kind.places = []
  · obtain ⟨next, stepped, moves⟩ := step_moves_cursor l regular noInclusion places
    rw [stepped]
    obtain ⟨new, records, _, awaits⟩ := moves.records
    refine ⟨reached_step laid.reached stepped, ?_, ?_, ?_⟩
    · intro record member
      rw [records] at member
      rcases List.mem_append.mp member with old | recent
      · obtain ⟨u, there, owner⟩ := laid.records record old
        exact ⟨u, List.mem_append_left _ there, owner⟩
      · exact ⟨t, by simp, awaits record recent⟩
    · intro u member r kind
      rcases List.mem_append.mp member with old | recent
      · obtain ⟨o, there, owner⟩ := laid.operands u old r kind
        exact ⟨o, by rw [records]; exact List.mem_append_left _ there, owner⟩
      · obtain rfl := List.mem_singleton.mp recent
        exact moves.operand regular kind
    · intro name a
      rw [moves.symbols, laid.addresses, placed_step laid.reached, places]
      simp
  · have ends := placeLabels_ends l t t.kind.places
    rw [← step_places l places] at ends
    cases stepped : step l t with
    | ok next =>
      obtain ⟨symbols, rfl, _, addresses⟩ := ends.ok stepped
      refine ⟨reached_step laid.reached stepped, ?_, ?_, ?_⟩
      · intro record member
        obtain ⟨u, there, owner⟩ := laid.records record member
        exact ⟨u, List.mem_append_left _ there, owner⟩
      · intro u member r kind
        rcases List.mem_append.mp member with old | recent
        · exact laid.operands u old r kind
        · obtain rfl := List.mem_singleton.mp recent
          simp [kind, TokenKind.places] at places
      · intro name a
        rw [addresses, laid.addresses, placed_step laid.reached]
    | error stop =>
      obtain ⟨name, member, ⟨first, report⟩, twice⟩ := ends.error stepped
      rcases TokenKind.places_cases regular member with plain | kind
      · exact ⟨name, first, plain, report⟩
      · obtain ⟨a, present⟩ := twice (by simp [kind, TokenKind.places])
        obtain ⟨front, u, back, _, rfl, _, again, _⟩ := (laid.addresses name a).mp present
        exact absurd again (single name kind u (by simp))

def faults : List Kind := [.duplicateLabel, .undefinedLabel, .referenceRange]

-- What the layout of a program can fail with: a label of the program itself that is placed twice or not at all, or
-- a value that is out of range.
def NamedFault (f : Failure) : Prop :=
  ∃ d, f = .report d ∧ d.cause.kind ∈ faults ∧ ∀ name, d.cause.misplaced? = some name → Plain name

theorem NamedFault.within {f : Failure} (fault : NamedFault f) : f.Within faults := by
  obtain ⟨d, report, kind, _⟩ := fault
  exact ⟨d, report, kind⟩

theorem laid_start (l : Layout) : Laid l.restart [] l.restart := by
  refine ⟨rfl, by simp [restart], by simp, ?_⟩
  intro name a
  constructor
  · intro found
    rw [restart, SymbolTable.addressOf?_clearAddresses] at found
    cases found
  · rintro ⟨front, t, back, _, split, _⟩
    simp at split

theorem linearize_ends (l : Layout) (regular : ∀ t ∈ tokens, t.kind.Regular)
    (noInclusion : ∀ t ∈ tokens, ∀ name, t.kind ≠ .inclusion name) (labels : (closerLabels tokens).Nodup) :
    Ends (Laid l.restart tokens) NamedFault (l.linearize tokens) := by
  have ends : Ends _ NamedFault (l.linearize tokens) := ends_each
    (fun rest l' => ∃ done, tokens = done ++ rest ∧ Laid l.restart done l') (fun l' t rest before => by
      obtain ⟨done, rfl, laid⟩ := before
      have single : ∀ label, t.kind = .subroutineClose label → ∀ u ∈ done, label ∉ u.kind.places := by
        intro label kind u member again
        rcases TokenKind.places_cases (regular u (by simp [member])) again with plain | closer
        · have spaced : ¬ Plain label := by simpa [kind, TokenKind.Regular] using regular t (by simp)
          exact spaced plain
        · rw [closerLabels_append, closerLabels_cons, kind] at labels
          exact (List.nodup_append.mp labels).2.2 label (mem_closerLabels.mpr ⟨u, member, closer⟩) label
            (by simp [TokenKind.closerLabel?]) rfl
      refine (step_laid laid (regular t (by simp)) (noInclusion t (by simp)) single).mono ?_ ?_
      · intro next after
        exact ⟨done ++ [t], by simp, after⟩
      · rintro f ⟨name, first, plain, rfl⟩
        refine ⟨_, rfl, by simp [Cause.kind, faults], ?_⟩
        rintro _ ⟨⟩
        exact plain)
    ⟨[], rfl, laid_start l⟩
  refine ends.mono ?_ (fun _ fault => fault)
  rintro last ⟨done, split, laid⟩
  rw [List.append_nil] at split
  exact split ▸ laid

inductive Filled (symbols : SymbolTable) : Record → Record → Prop where
  | bytes (position : Int) (data : List UInt8) (token : Option Token) :
      Filled symbols (.bytes position data token) (.bytes position data token)
  | operand {o : Operand} {address value : Int} (found : symbols.addressOf? o.label = some address)
      (given : o.valueFor address = .ok value) : Filled symbols (.operand o) (.operand { o with value := some value })

-- Operands are looked up one after another, up to the first that fails.
theorem resolveRecords_ends (l : Layout) {records : List Record} (waits : ∀ o, .operand o ∈ records → o.value = none) :
    Ends (fun next => next.symbols = l.symbols ∧
        ∃ filled, next.records.toList = l.records.toList ++ filled ∧ List.Forall₂ (Filled l.symbols) records filled)
      (fun f => ∃ front filled o back, records = front ++ .operand o :: back ∧
        List.Forall₂ (Filled l.symbols) front filled ∧ (l.symbols.addressOf? o.label = none ∧ f = o.undefined l.symbols ∨
          ∃ address, l.symbols.addressOf? o.label = some address ∧ o.valueFor address = .error f))
      (l.resolveRecords records) := by
  induction records generalizing l with
  | nil => exact ⟨rfl, [], by simp, .nil⟩
  | cons record rest ih =>
    have later := fun o member => waits o (List.mem_cons_of_mem record member)
    unfold resolveRecords resolveRecord
    cases record with
    | bytes position data token =>
      simp only [Record.resolveIn]
      refine (ih { l with records := l.records.push (.bytes position data token) } later).mono ?_ ?_
      · rintro next ⟨symbols, filled, grown, pairs⟩
        exact ⟨symbols, _ :: filled, by simp [grown], .cons (.bytes ..) pairs⟩
      · rintro f ⟨front, filled, o, back, rfl, pairs, fault⟩
        exact ⟨_ :: front, _ :: filled, o, back, rfl, .cons (.bytes ..) pairs, fault⟩
    | operand o =>
      simp only [Record.resolveIn]
      rcases o.resolveIn_cases l.symbols (waits o List.mem_cons_self) with
        ⟨address, value, found, given, resolved⟩ | ⟨missing, failed⟩ | ⟨address, f, found, given, failed⟩
      · rw [resolved]
        refine (ih { l with records := l.records.push (.operand { o with value := some value }) } later).mono ?_ ?_
        · rintro next ⟨symbols, filled, grown, pairs⟩
          exact ⟨symbols, _ :: filled, by simp [grown], .cons (.operand found given) pairs⟩
        · rintro f ⟨front, filled, u, back, rfl, pairs, fault⟩
          exact ⟨_ :: front, _ :: filled, u, back, rfl, .cons (.operand found given) pairs, fault⟩
      · rw [failed]
        exact ⟨[], [], o, rest, rfl, .nil, .inl ⟨missing, rfl⟩⟩
      · rw [failed]
        exact ⟨[], [], o, rest, rfl, .nil, .inr ⟨address, found, given⟩⟩

theorem mem_of_forall₂ {α β : Type} {R : α → β → Prop} {xs : List α} {ys : List β} (pairs : List.Forall₂ R xs ys) :
    (∀ x ∈ xs, ∃ y ∈ ys, R x y) ∧ ∀ y ∈ ys, ∃ x ∈ xs, R x y := by
  induction pairs with
  | nil => exact ⟨by simp, by simp⟩
  | cons pair _ ih =>
    simp only [List.mem_cons, forall_eq_or_imp]
    exact ⟨⟨⟨_, .inl rfl, pair⟩, fun x member => (ih.1 x member).imp fun _ found => ⟨.inr found.1, found.2⟩⟩,
      ⟨_, .inl rfl, pair⟩, fun y member => (ih.2 y member).imp fun _ found => ⟨.inr found.1, found.2⟩⟩

-- Each reference has its operand, and each operand the value that the address of its label gives it.
structure Resolved (l : Layout) (tokens : List Token) (last : Layout) : Prop where
  operands : ∀ t ∈ tokens, ∀ r, t.kind = .reference r → ∃ o, .operand o ∈ last.records.toList ∧ o.token = t
  values : ∀ o, .operand o ∈ last.records.toList → o.token ∈ tokens ∧ o.token.kind.label? = some o.label ∧
    ∃ address value, Placed l.restart tokens o.label address ∧ o.valueFor address = .ok value ∧ o.value = some value

theorem Resolved.data (resolved : Resolved l tokens last) :
    ∀ record ∈ last.records.toList, ∃ data, record.data = .ok data := by
  intro record member
  cases record with
  | bytes position data token => exact ⟨data, rfl⟩
  | operand o =>
    obtain ⟨_, _, address, value, _, given, filled⟩ := resolved.values o member
    exact Operand.data_of_valueFor given filled

theorem resolved_of_laid (laid : Laid l.restart tokens next) {filled : List Record}
    (records : last.records.toList = filled) (pairs : List.Forall₂ (Filled next.symbols) next.records.toList filled) :
    Resolved l tokens last := by
  obtain ⟨forth, back⟩ := mem_of_forall₂ pairs
  refine ⟨?_, ?_⟩
  · intro t member r kind
    obtain ⟨o, there, rfl⟩ := laid.operands t member r kind
    obtain ⟨later, inFilled, pair⟩ := forth _ there
    cases pair with
    | @operand o address value found given => exact ⟨{ o with value := some value }, records ▸ inFilled, rfl⟩
  · intro o member
    rw [records] at member
    obtain ⟨record, there, pair⟩ := back _ member
    cases pair with
    | @operand o address value found given =>
      obtain ⟨t, inTokens, rfl, _, r, kind, target⟩ := laid.records _ there
      exact ⟨inTokens, by simpa [kind, TokenKind.label?] using target, address, value,
        (laid.addresses _ _).mp found, given, rfl⟩

-- The label of an inline subroutine is always placed, because its closing brace is in the program.
theorem inline_placed (orderly : Orderly tokens) (laid : Laid start tokens l) (member : t ∈ tokens) {r : Reference}
    (kind : t.kind = .reference r) (target : r.target = .inline (some label)) :
    ∃ a, l.symbols.addressOf? label = some a := by
  have opens : t.kind.closer? = some '\x7d' := TokenKind.closer?_eq_curly.mpr ⟨r, some label, kind, target⟩
  obtain ⟨front, rest, rfl⟩ := List.append_of_mem member
  obtain ⟨inside, closer, back, rfl, _, pairs⟩ := Nesting.partner orderly.balanced opens
  have whole : front ++ t :: (inside ++ closer :: back) = (front ++ t :: inside) ++ closer :: back := by simp
  have brace := pairs.closer_kind (show t.kind.label? = some label by simp [kind, TokenKind.label?, target, Target.label?])
  have places : label ∈ closer.kind.places := by simp [brace, TokenKind.places]
  have reached := laid.reached
  rw [whole, each_append] at reached
  obtain ⟨middle, walked, _⟩ := andThen_eq_ok reached
  exact ⟨middle.target, (laid.addresses _ _).mpr ⟨_, closer, back, middle, whole, walked, places, rfl⟩⟩

theorem generate_ends (l : Layout) (orderly : Orderly tokens)
    (noInclusion : ∀ t ∈ tokens, ∀ name, t.kind ≠ .inclusion name) (labels : (closerLabels tokens).Nodup) :
    Ends (Resolved l tokens) NamedFault (l.generate tokens) := by
  refine (linearize_ends l orderly.regular noInclusion labels).andThen ?_
  intro next laid
  refine (resolveRecords_ends { next with records := #[] } laid.waits).mono ?_ ?_
  · rintro last ⟨_, filled, records, pairs⟩
    exact resolved_of_laid laid (by simpa using records) pairs
  · rintro f ⟨front, _, o, back, parts, _, ⟨missing, rfl⟩ | ⟨address, _, failed⟩⟩
    · have member : .operand o ∈ next.records.toList := by simp [parts]
      refine ⟨_, rfl, by simp [Cause.kind, faults], ?_⟩
      rintro _ ⟨⟩
      obtain ⟨t, inTokens, rfl, _, r, kind, label⟩ := laid.records _ member
      have regular := orderly.regular _ inTokens
      rw [kind] at regular
      have suits := regular.2
      cases target : r.target with
      | named name =>
        rw [target] at suits label
        cases label
        exact suits.1
      | «inline» inner =>
        rw [target] at label
        obtain ⟨a, found⟩ := inline_placed orderly laid inTokens kind (target.trans (congrArg _ label))
        have none : next.symbols.addressOf? o.label = none := missing
        rw [found] at none
        cases none
    · obtain ⟨value, rfl⟩ := Operand.valueFor_error failed
      exact ⟨_, rfl, by simp [Cause.kind, faults], by simp [Cause.misplaced?]⟩

end Layout

end RuneAsm
