import Mathlib
import RuneAsm.Proofs.Following
import RuneAsm.Proofs.Repetition
import RuneAsm.Proofs.Scanning

namespace RuneAsm

open Run

-- Where everything comes to stand. Each of the two positions is the one that was set last, and from there on what the
-- tokens since take up. The records of a token follow each other from its output position on, and its labels get its
-- target position. Positions that a text sets are never below zero, so no address is unless the load base is.

-- How far a token moves both positions on: by what it pads, or by the bytes that it writes.
def TokenKind.extent : TokenKind → Int
  | .padRelative count => count
  | kind => kind.size

-- What a token sets the output position to.
def TokenKind.output? : TokenKind → Option Int
  | .padAbsolute position => some position
  | _ => none

-- What a token sets the target position to.
def TokenKind.target? : TokenKind → Option Int
  | .padAbsolute position | .retarget position => some position
  | _ => none

-- The position that was set last, or else the base, and from there on what the tokens since take up.
def positionAfter (set? : TokenKind → Option Int) (base : Int) (tokens : List Token) : Int :=
  (tokens.reverse.findSome? (set? ·.kind)).getD base +
    ((tokens.rtakeWhile fun t => (set? t.kind).isNone).map (·.kind.extent)).sum

variable {tokens : List Token} {t : Token}

theorem positionAfter_snoc (set? : TokenKind → Option Int) (base : Int) (tokens : List Token) (t : Token) :
    positionAfter set? base (tokens ++ [t]) = (set? t.kind).getD (positionAfter set? base tokens + t.kind.extent) := by
  cases sets : set? t.kind with
  | none => simp [positionAfter, sets, Int.add_assoc]
  | some position => simp [positionAfter, sets]

namespace Cursor

theorem pass_eq (c : Cursor) (t : Token) : c.pass t =
    ⟨t.kind.output?.getD (c.output + t.kind.extent), t.kind.target?.getD (c.target + t.kind.extent)⟩ := by
  unfold pass
  cases kind : t.kind <;> simp [TokenKind.output?, TokenKind.target?, TokenKind.extent, TokenKind.size]

theorem after_eq (base : Int) (tokens : List Token) : (⟨base, base⟩ : Cursor).after tokens =
    ⟨positionAfter TokenKind.output? base tokens, positionAfter TokenKind.target? base tokens⟩ := by
  induction tokens using List.reverseRecOn with
  | nil => simp [after, positionAfter]
  | append_singleton tokens t ih => rw [after_snoc, ih, pass_eq, positionAfter_snoc, positionAfter_snoc]

end Cursor

-- Records of a token that follow each other from a position on.
def Record.Abut (t : Token) : Int → List Record → Prop
  | _, [] => True
  | position, record :: rest =>
    record.token? = some t ∧ record.position = position ∧ Abut t (position + record.size) rest

theorem Record.Abut.at {position : Int} {earlier later : List Record} {record : Record}
    (abut : Abut t position (earlier ++ record :: later)) :
    record.token? = some t ∧ record.position = position + (earlier.map Record.size).sum := by
  induction earlier generalizing position with
  | nil => exact ⟨abut.1, by simpa using abut.2.1⟩
  | cons first earlier ih =>
    obtain ⟨owner, start⟩ := ih abut.2.2
    refine ⟨owner, ?_⟩
    rw [start, List.map_cons, List.sum_cons]
    push_cast
    omega

namespace Layout

variable {l next start m : Layout} {name : String}

-- The records that a token has added, all of them or those before a failure.
def Adds (t : Token) (l : Layout) (new : List Record) (next : Layout) : Prop :=
  next.records.toList = l.records.toList ++ new ∧ Record.Abut t l.output new

-- A token that was laid out in full.
structure Passes (t : Token) (l next : Layout) : Prop where
  cursor : next.cursor = l.cursor.pass t
  records : ∃ new, Adds t l new next ∧ (new.map Record.size).sum = t.kind.size

theorem Shifts.passes {n : Nat} {new : List Record} (shifts : Shifts n new l next) (size : t.kind.size = n)
    (unset : t.kind.target? = none) (unpadded : t.kind.extent = t.kind.size) (abut : Record.Abut t l.output new)
    (total : (new.map Record.size).sum = n) : Passes t l next := by
  have output : t.kind.output? = none := by
    cases kind : t.kind <;> first | rfl | simp [kind, TokenKind.target?] at unset
  refine ⟨?_, new, ⟨shifts.records, abut⟩, by rw [total, size]⟩
  rw [Cursor.pass_eq, output, unset, unpadded, size, cursor, shifts.output, shifts.target]
  rfl

theorem Adds.nothing (same : next.records = l.records) : Adds t l [] next := ⟨by simp [same], trivial⟩

theorem emitInstruction_leaves (l : Layout) (mnemonic : String) (t : Token) :
    Leaves (fun next => ∃ byte, next = l.emit [byte] t) (· = l) (l.emitInstruction mnemonic t) := by
  unfold emitInstruction
  split
  · exact ⟨_, rfl⟩
  · rfl

theorem emitNumber_leaves (l : Layout) (value : Int) (width : Width) (t : Token) :
    Leaves (fun next => ∃ data, next = l.emit data t ∧ data.length = width.bytes) (· = l)
      (l.emitNumber value width t) := by
  unfold emitNumber
  split
  · rename_i data bytes
    exact ⟨data, rfl, Width.length_bytesOf bytes⟩
  · rfl

theorem emitNumber_passes (l : Layout) {value : Int} {width : Width} (size : t.kind.size = width.bytes)
    (unset : t.kind.target? = none) (unpadded : t.kind.extent = t.kind.size) :
    Leaves (Passes t l) (fun next => ∃ new, Adds t l new next) (l.emitNumber value width t) := by
  refine (emitNumber_leaves l value width t).mono ?_ ?_
  · rintro next ⟨data, rfl, length⟩
    exact (l.emit_shifts data t).passes (by rw [size, length]) unset unpadded (by simp [Record.Abut, Record.token?,
      Record.position]) (by simp [Record.size])
  · rintro next rfl
    exact ⟨[], .nothing rfl⟩

theorem literal_passes (l : Layout) {value : Int} {width : Width} (kind : t.kind = .literalHex value width) :
    Leaves (Passes t l) (fun next => ∃ new, Adds t l new next)
      ((l.emitInstruction (literalInstruction width) t).andThen fun l => l.emitNumber value width t) := by
  have first := emitInstruction_leaves l (literalInstruction width) t
  refine (first.mono (fun _ good => good) ?_).andThen ?_
  · rintro next rfl
    exact ⟨[], .nothing rfl⟩
  · rintro next ⟨byte, rfl⟩
    have instruction := l.emit_shifts [byte] t
    refine (emitNumber_leaves (l.emit [byte] t) value width t).mono ?_ ?_
    · rintro next ⟨data, rfl, length⟩
      refine (instruction.trans ((l.emit [byte] t).emit_shifts data t)).passes ?_ ?_ ?_ ?_ ?_
      · simp [kind, TokenKind.size, length]
      · simp [kind, TokenKind.target?]
      · simp [kind, TokenKind.extent]
      · simp [Record.Abut, Record.token?, Record.position, Record.size, instruction.output]
      · simp [Record.size]
    · rintro next rfl
      exact ⟨_, instruction.records, by simp [Record.Abut, Record.token?, Record.position]⟩

theorem reference_passes (l : Layout) {r : Reference} (kind : t.kind = .reference r) :
    Leaves (Passes t l) (fun next => ∃ new, Adds t l new next) (l.emitReference r t) := by
  unfold emitReference
  split
  · exact ⟨[], .nothing rfl⟩
  · rename_i label _
    split
    · rename_i alone
      refine (l.emitOperand_shifts label r.mode t).passes ?_ ?_ ?_ ?_ ?_
      · simp [kind, TokenKind.size, alone]
      · simp [kind, TokenKind.target?]
      · simp [kind, TokenKind.extent]
      · simp [Record.Abut, Record.token?, Record.position]
      · simp [Record.size, Operand.size]
    · rename_i mnemonic stands
      have first := emitInstruction_leaves l mnemonic t
      refine (first.mono (fun _ good => good) ?_).andThen ?_
      · rintro next rfl
        exact ⟨[], .nothing rfl⟩
      · rintro next ⟨byte, rfl⟩
        have instruction := l.emit_shifts [byte] t
        refine (instruction.trans ((l.emit [byte] t).emitOperand_shifts label r.mode t)).passes ?_ ?_ ?_ ?_ ?_
        · simp [kind, TokenKind.size, stands]
        · simp [kind, TokenKind.target?]
        · simp [kind, TokenKind.extent]
        · simp [Record.Abut, Record.token?, Record.position, Record.size, instruction.output]
        · simp [Record.size, Operand.size]

-- Some of the names have got the address; all other addresses are as they were.
structure Gains (names : List String) (address : Int) (table later : SymbolTable) : Prop where
  keeps : ∀ x a, table.addressOf? x = some a → later.addressOf? x = some a
  only : ∀ x a, later.addressOf? x = some a → table.addressOf? x = some a ∨ x ∈ names ∧ a = address

theorem placeLabels_gains (l : Layout) (t : Token) (names : List String) :
    Leaves
      (fun next => ∃ symbols, next = { l with symbols } ∧ Gains names l.target l.symbols symbols ∧
        ∀ x ∈ names, symbols.addressOf? x = some l.target)
      (fun next => ∃ symbols, next = { l with symbols } ∧ Gains names l.target l.symbols symbols)
      (Run.each (fun l name => l.placeLabel name t) l names) := by
  induction names generalizing l with
  | nil => exact ⟨l.symbols, rfl, ⟨fun _ _ same => same, fun _ _ same => .inl same⟩, by simp⟩
  | cons name rest ih =>
    rw [each_cons]
    unfold placeLabel
    rcases SymbolTable.place_cases l.symbols name l.target t.location with
      ⟨_, earlier, failed⟩ | ⟨absent, symbols, placed, addresses⟩
    · rw [failed]
      exact ⟨l.symbols, rfl, fun _ _ same => same, fun _ _ same => .inl same⟩
    · rw [placed, andThen_ok]
      have first : symbols.addressOf? name = some l.target := by rw [addresses, if_pos rfl]
      have gained {later : SymbolTable} (gains : Gains rest l.target symbols later) :
          Gains (name :: rest) l.target l.symbols later := by
        refine ⟨?_, ?_⟩
        · intro x a known
          have other : x ≠ name := by
            rintro rfl
            rw [absent] at known
            cases known
          exact gains.keeps x a (by rw [addresses, if_neg other, known])
        · intro x a found
          rcases gains.only x a found with before | ⟨inRest, same⟩
          · rw [addresses] at before
            split at before
            · rename_i same
              exact .inr ⟨by simp [same], (Option.some.inj before).symm⟩
            · exact .inl before
          · exact .inr ⟨List.mem_cons_of_mem _ inRest, same⟩
      refine (ih { l with symbols }).mono ?_ ?_
      · rintro next ⟨later, rfl, gains, all⟩
        refine ⟨later, rfl, gained gains, ?_⟩
        intro x member
        rcases List.mem_cons.mp member with rfl | inRest
        · exact gains.keeps x _ first
        · exact all x inRest
      · rintro next ⟨later, rfl, gains⟩
        exact ⟨later, rfl, gained gains⟩

-- What one token does to a layout, or leaves undone where it fails.
theorem step_passes (l : Layout) (t : Token) :
    Leaves (Passes t l) (fun next => ∃ new, Adds t l new next) (step l t) := by
  by_cases places : t.kind.places = []
  · unfold step
    cases kind : t.kind with
    | blank | comment | groupOpen | groupClose | macroDefinition =>
      exact ⟨by simp [Cursor.pass, cursor, kind, TokenKind.size], [], .nothing rfl, by simp [kind, TokenKind.size]⟩
    | padRelative count =>
      refine ⟨?_, [], .nothing rfl, by simp [kind, TokenKind.size]⟩
      simp only [Cursor.pass, cursor, kind, target, Cursor.mk.injEq, true_and]
      omega
    | padAbsolute position =>
      exact ⟨by simp [Cursor.pass, cursor, kind, target], [], .nothing rfl, by simp [kind, TokenKind.size]⟩
    | retarget position =>
      exact ⟨by simp [Cursor.pass, cursor, kind, target], [], .nothing rfl, by simp [kind, TokenKind.size]⟩
    | parentLabel label implied => simp [kind, TokenKind.places] at places
    | childLabel label => simp [kind, TokenKind.places] at places
    | subroutineClose label => simp [kind, TokenKind.places] at places
    | literalHex value width => exact literal_passes l kind
    | rawHex value width =>
      exact emitNumber_passes l (by simp [kind, TokenKind.size]) (by simp [kind, TokenKind.target?])
        (by simp [kind, TokenKind.extent])
    | opcode value =>
      exact emitNumber_passes l (by simp [kind, TokenKind.size, Width.bytes]) (by simp [kind, TokenKind.target?])
        (by simp [kind, TokenKind.extent])
    | rawText data =>
      refine (l.emit_shifts data t).passes ?_ ?_ ?_ ?_ ?_
      · simp [kind, TokenKind.size]
      · simp [kind, TokenKind.target?]
      · simp [kind, TokenKind.extent]
      · simp [Record.Abut, Record.token?, Record.position]
      · simp [Record.size]
    | reference r => exact reference_passes l kind
    | inclusion name => exact ⟨[], .nothing rfl⟩
  · rw [step_places l places]
    obtain ⟨still, _⟩ := Cursor.pass_of_places (c := l.cursor) places
    have size : t.kind.size = 0 := by
      cases kind : t.kind <;> first | rfl | simp [kind, TokenKind.places] at places
    refine (placeLabels_gains l t t.kind.places).mono ?_ ?_
    · rintro next ⟨symbols, rfl, _⟩
      exact ⟨still.symm, [], .nothing rfl, by simp [size]⟩
    · rintro next ⟨symbols, rfl, _⟩
      exact ⟨[], .nothing rfl⟩

theorem step_gains (l : Layout) (t : Token) :
    Leaves (fun next => Gains t.kind.places l.target l.symbols next.symbols ∧
        ∀ x ∈ t.kind.places, next.symbols.addressOf? x = some l.target)
      (fun next => Gains t.kind.places l.target l.symbols next.symbols) (step l t) := by
  by_cases places : t.kind.places = []
  · have same := step_symbols l places
    have unchanged : Gains t.kind.places l.target l.symbols (step l t).state.symbols := by
      rw [same]
      exact ⟨fun _ _ known => known, fun _ _ known => .inl known⟩
    cases ran : step l t with
    | ok next =>
      rw [ran] at unchanged
      exact ⟨unchanged, by simp [places]⟩
    | error stop =>
      rw [ran] at unchanged
      exact unchanged
  · rw [step_places l places]
    refine (placeLabels_gains l t t.kind.places).mono ?_ ?_
    · rintro next ⟨symbols, rfl, gains, all⟩
      exact ⟨gains, all⟩
    · rintro next ⟨symbols, rfl, gains⟩
      exact gains

theorem each_cursor (reached : Run.each step start tokens = .ok m) : m.cursor = start.cursor.after tokens := by
  induction tokens generalizing start with
  | nil =>
    cases reached
    rfl
  | cons t rest ih =>
    obtain ⟨next, first, others⟩ := andThen_eq_ok reached
    rw [ih others, ((step_passes start t).ok first).cursor]
    rfl

theorem each_records (start : Layout) (tokens : List Token) :
    start.records.toList <+: (Run.each step start tokens).state.records.toList := by
  induction tokens generalizing start with
  | nil => exact List.prefix_refl _
  | cons t rest ih =>
    have passes := step_passes start t
    rw [each_cons]
    cases ran : step start t with
    | ok next =>
      obtain ⟨new, ⟨records, _⟩, _⟩ := (passes.ok ran).records
      have grown : start.records.toList <+: next.records.toList := records ▸ List.prefix_append _ _
      exact grown.trans (ih next)
    | error stop =>
      obtain ⟨new, records, _⟩ := passes.error ran
      exact records ▸ List.prefix_append start.records.toList new

theorem each_keeps (start : Layout) (tokens : List Token) {a : Int} (known : start.symbols.addressOf? name = some a) :
    (Run.each step start tokens).state.symbols.addressOf? name = some a := by
  induction tokens generalizing start with
  | nil => exact known
  | cons t rest ih =>
    have gains := step_gains start t
    rw [each_cons]
    cases ran : step start t with
    | ok next => exact ih next ((gains.ok ran).1.keeps name a known)
    | error stop => exact (gains.error ran).keeps name a known

-- Every address was given by a token on the way.
theorem each_placed (start : Layout) (tokens : List Token) {a : Int}
    (found : (Run.each step start tokens).state.symbols.addressOf? name = some a) :
    start.symbols.addressOf? name = some a ∨ Placed start tokens name a := by
  induction tokens generalizing start with
  | nil => exact .inl found
  | cons t rest ih =>
    have gains := step_gains start t
    have here (gained : start.symbols.addressOf? name = some a ∨ name ∈ t.kind.places ∧ a = start.target) :
        start.symbols.addressOf? name = some a ∨ Placed start (t :: rest) name a :=
      gained.imp_right fun ⟨places, same⟩ => ⟨[], t, rest, start, rfl, rfl, places, same.symm⟩
    rw [each_cons] at found
    cases ran : step start t with
    | error stop =>
      rw [ran] at found
      exact here ((gains.error ran).only name a found)
    | ok next =>
      rw [ran] at found
      rcases ih next found with early | ⟨front, u, back, m, rfl, walked, places, address⟩
      · exact here ((gains.ok ran).1.only name a early)
      · refine .inr ⟨t :: front, u, back, m, rfl, ?_, places, address⟩
        rw [each_cons, ran]
        exact walked

theorem symbols_generate (l : Layout) (tokens : List Token) :
    (l.generate tokens).state.symbols = (l.linearize tokens).state.symbols := by
  unfold generate
  cases l.linearize tokens with
  | error stop => rfl
  | ok laid => exact (resolveRecords_leaves { laid with records := #[] } laid.records.toList).1

theorem placed_of_generate {l : Layout} {a : Int} (found : (l.generate tokens).state.symbols.addressOf? name = some a) :
    Placed l.restart tokens name a := by
  rw [symbols_generate] at found
  rcases each_placed l.restart tokens found with early | placed
  · rw [show l.restart.symbols = l.symbols.clearAddresses from rfl, SymbolTable.addressOf?_clearAddresses] at early
    cases early
  · exact placed

end Layout

-- Neither position can fall below zero by such a token.
def TokenKind.Upward : TokenKind → Prop
  | .padAbsolute position | .padRelative position | .retarget position => 0 ≤ position
  | _ => True

theorem TokenKind.upward_bare {kind : TokenKind} : kind.bare.Upward ↔ kind.Upward := by
  cases kind with
  | reference r => cases target : r.target <;> simp [bare, target, Upward]
  | _ => simp [bare, Upward]

theorem TokenKind.upward_mapLabel {kind : TokenKind} (f : String → String) : (kind.mapLabel f).Upward ↔ kind.Upward := by
  cases kind with
  | reference r => cases target : r.target <;> simp [mapLabel, target, Upward]
  | _ => simp [mapLabel, Upward]

-- Numbers are read as what they are, without a sign.
theorem Lexeme.upward {lexeme : Lexeme} {parent : Option String} {kind : TokenKind}
    (told : lexeme.kind? parent = some kind) : kind.Upward := by
  obtain ⟨m, meant, rfl⟩ := meaning_of_kind? told
  rw [TokenKind.upward_bare]
  cases lexeme with
  | blank text =>
    cases meant
    trivial
  | comment text closed =>
    cases closed <;> cases meant
    trivial
  | bracket c =>
    cases meant
    unfold bracketMeaning
    split_ifs <;> trivial
  | word first rest =>
    rcases wordMeaning_ok meant with ⟨rune, _, meant⟩ | ⟨_, meant⟩
    · cases rune <;> simp only [runeMeaning] at meant
      case parentLabel =>
        obtain ⟨_, _, kind, _⟩ := parentMeaning_ok meant
        rw [kind]
        trivial
      case childLabel =>
        obtain ⟨_, _, rfl⟩ := childMeaning_ok meant
        trivial
      case reference =>
        obtain ⟨_, rfl⟩ := referenceMeaning_ok meant
        trivial
      case inclusion | macroDefinition =>
        rw [namedMeaning_ok meant]
        trivial
      case rawText =>
        cases meant
        trivial
      case literalHex =>
        obtain ⟨_, _, rfl⟩ := numberMeaning_ok meant
        trivial
      all_goals
        obtain ⟨value, number, rfl⟩ := numberMeaning_ok meant
        exact Int.natCast_nonneg value
    · rcases plainMeaning_ok meant with ⟨_, rfl⟩ | ⟨_, _, rfl⟩ | meant
      · trivial
      · trivial
      · obtain ⟨_, rfl⟩ := referenceMeaning_ok meant
        trivial

namespace Expander

variable {ctx : Context} {input : Input} {journal : Journal} {e : Expander}

theorem upward_lasts (ctx : Context) : Lasts ctx TokenKind.Upward where
  read {source file e lexed} ran t member := by
    rw [read_eq] at ran
    split at ran
    · rename_i r read
      cases ran
      have marks := ((Reader.run_scans (e.reader ctx.settings source file)).ok read).marks
      have marked : t.mark ∈ r.marks := List.mem_map_of_mem member
      rw [marks] at marked
      obtain ⟨lexeme, _, _, parent, kind⟩ :=
        Reader.mem_stamps (by simpa [Reader.marks, reader, Reader.tokens] using marked)
      exact TokenKind.upward_bare.mp (Lexeme.upward kind.symm)
    · cases ran
  captured _ := trivial
  relabelled f upward := (TokenKind.upward_mapLabel f).mpr upward

end Expander

theorem Cursor.after_nonneg {c : Cursor} (upward : ∀ t ∈ tokens, t.kind.Upward) (start : 0 ≤ c.output ∧ 0 ≤ c.target) :
    0 ≤ (c.after tokens).output ∧ 0 ≤ (c.after tokens).target := by
  induction tokens generalizing c with
  | nil => exact start
  | cons t rest ih =>
    refine ih (fun u member => upward u (List.mem_cons_of_mem _ member)) ?_
    have here := upward t List.mem_cons_self
    unfold pass
    cases kind : t.kind <;> simp only [kind, TokenKind.Upward] at here ⊢ <;> omega

namespace Layout

-- What the walk has reached before a token, whatever comes after it.
theorem generate_reached {l m : Layout} {front : List Token} (reached : l.linearize front = .ok m) (t : Token)
    (back : List Token) :
    ∃ new, (m.step t).state.records.toList = m.records.toList ++ new ∧ Record.Abut t m.output new ∧
      m.records.toList ++ new <+: (l.linearize (front ++ t :: back)).state.records.toList ∧
      ∀ next, m.step t = .ok next → (new.map Record.size).sum = t.kind.size ∧ ∀ name ∈ t.kind.places,
        (l.generate (front ++ t :: back)).state.symbols.addressOf? name = some m.target := by
  have parts : l.linearize (front ++ t :: back) = (m.step t).andThen fun next => Run.each step next back := by
    unfold linearize at reached ⊢
    rw [each_append, reached, andThen_ok, each_cons]
  rw [symbols_generate, parts]
  cases ran : m.step t with
  | error stop =>
    obtain ⟨new, records, abut⟩ := (step_passes m t).error ran
    exact ⟨new, records, abut, records ▸ List.prefix_refl _, by simp⟩
  | ok next =>
    obtain ⟨_, new, ⟨records, abut⟩, size⟩ := (step_passes m t).ok ran
    refine ⟨new, records, abut, records ▸ each_records next back, ?_⟩
    rintro _ ⟨⟩
    refine ⟨size, ?_⟩
    intro name places
    exact each_keeps next back (((step_gains m t).ok ran).2 name places)

theorem cursor_linearize {l m : Layout} (reached : l.linearize tokens = .ok m) : m.cursor =
    ⟨positionAfter TokenKind.output? l.loadBase tokens, positionAfter TokenKind.target? l.loadBase tokens⟩ := by
  have start : l.restart.cursor = ⟨l.loadBase, l.loadBase⟩ := by simp [cursor, target, restart]
  rw [each_cursor reached, start, Cursor.after_eq]

-- No position of a program that was expanded lies below the base, so no address does.
theorem address_nonneg {l : Layout} {ctx : Context} {input : Input} {journal : Journal} {e : Expander} {name : String}
    {a : Int} (ran : input.expand ctx { journal } = .ok e) (base : 0 ≤ l.loadBase)
    (found : (l.generate e.program).state.symbols.addressOf? name = some a) : 0 ≤ a := by
  obtain ⟨front, t, back, m, parts, reached, _, rfl⟩ := placed_of_generate found
  have upward : ∀ u ∈ front, u.kind.Upward := by
    intro u member
    exact (Expander.upward_lasts ctx).input ran u (parts ▸ List.mem_append_left _ member)
  have start : l.restart.cursor = ⟨l.loadBase, l.loadBase⟩ := by simp [cursor, target, restart]
  have above := (Cursor.after_nonneg (c := l.restart.cursor) upward (by rw [start]; exact ⟨base, base⟩)).2
  rw [← each_cursor reached] at above
  exact above

-- Whatever is laid out, and whether or not it succeeds: when the walk has come to a token, the two positions follow from
-- the tokens before it; the records of the token follow each other from the output position on and take up the size of the
-- token; and its labels get the target position, which they keep to the end. No label gets an address otherwise. The
-- positions of a program that was expanded stay at zero or above if they start there, and so do the addresses.
theorem generate_positions (l : Layout) (tokens : List Token) :
    (∀ front t back m, tokens = front ++ t :: back → l.linearize front = .ok m →
      m.output = positionAfter TokenKind.output? l.loadBase front ∧
      m.target = positionAfter TokenKind.target? l.loadBase front ∧
      ∃ new, (m.step t).state.records.toList = m.records.toList ++ new ∧
        m.records.toList ++ new <+: (l.linearize tokens).state.records.toList ∧
        (∀ earlier record later, new = earlier ++ record :: later →
          record.token? = some t ∧ record.position = m.output + (earlier.map Record.size).sum) ∧
        ∀ next, m.step t = .ok next → (new.map Record.size).sum = t.kind.size ∧ ∀ name ∈ t.kind.places,
          (l.generate tokens).state.symbols.addressOf? name = some m.target) ∧
    (∀ name a, (l.generate tokens).state.symbols.addressOf? name = some a → ∃ front t back m,
      tokens = front ++ t :: back ∧ l.linearize front = .ok m ∧ name ∈ t.kind.places ∧ m.target = a) ∧
    ∀ (ctx : Context) (input : Input) (journal : Journal) (e : Expander), input.expand ctx { journal } = .ok e →
      tokens = e.program → 0 ≤ l.loadBase → ∀ name a, (l.generate tokens).state.symbols.addressOf? name = some a →
        0 ≤ a := by
  refine ⟨?_, fun name a found => placed_of_generate found, ?_⟩
  · rintro front t back m rfl reached
    have here := cursor_linearize reached
    obtain ⟨new, records, abut, kept, passed⟩ := generate_reached reached t back
    refine ⟨congrArg Cursor.output here, congrArg Cursor.target here, new, records, kept, ?_, passed⟩
    rintro earlier record later rfl
    exact abut.at
  · rintro ctx input journal e ran rfl base name a found
    exact address_nonneg ran base found

-- Paddings of both kinds, a target position, references and texts between the labels.
theorem generate_positions_interleaved :
    ∃ e m laid, (Input.text "$03 @a/b #0102 ^0010 ;a/c $04 &c \x22hi |0200 @d".toList "<input>").expand ⟨{}, ⟨[], []⟩⟩ {} =
        .ok e ∧
      let l : Layout := { loadBase := 0x100, symbols := e.symbols }
      l.linearize (e.program.take 12) = .ok m ∧ l.generate e.program = .ok laid ∧
      laid.symbols.addresses = [("a", 0x103), ("a/b", 0x103), ("a/c", 0x17), ("d", 0x200)] ∧
      positionAfter TokenKind.output? 0x100 (e.program.take 12) = 0x10d ∧
      positionAfter TokenKind.target? 0x100 (e.program.take 12) = 0x17 ∧
      ∀ name a, laid.symbols.addressOf? name = some a → 0 ≤ a := by
  have made : ((Input.text "$03 @a/b #0102 ^0010 ;a/c $04 &c \x22hi |0200 @d".toList "<input>").expand ⟨{}, ⟨[], []⟩⟩
      {}).toOption.bind (fun e =>
        let l : Layout := { loadBase := 0x100, symbols := e.symbols }
        (l.linearize (e.program.take 12)).toOption.bind fun m => (l.generate e.program).toOption.map fun laid =>
          (m.cursor, laid.symbols.addresses, e.program.length)) =
      some (⟨0x10d, 0x17⟩, [("a", 0x103), ("a/b", 0x103), ("a/c", 0x17), ("d", 0x200)], 19) := by decide +kernel
  obtain ⟨e, expanded, rest⟩ := Option.bind_eq_some_iff.mp made
  obtain ⟨m, walked, rest⟩ := Option.bind_eq_some_iff.mp rest
  obtain ⟨laid, generated, facts⟩ := Option.map_eq_some_iff.mp rest
  obtain ⟨here, addresses, length⟩ : m.cursor = ⟨0x10d, 0x17⟩ ∧
      laid.symbols.addresses = [("a", 0x103), ("a/b", 0x103), ("a/c", 0x17), ("d", 0x200)] ∧ e.program.length = 19 := by
    simpa using facts
  have expansion := eq_ok_of_toOption expanded
  have walk := eq_ok_of_toOption walked
  have generation := eq_ok_of_toOption generated
  have within : 12 < e.program.length := by omega
  have parts : e.program = e.program.take 12 ++ e.program[12] :: e.program.drop 13 := by
    rw [List.getElem_cons_drop, List.take_append_drop]
  obtain ⟨positions, _, nonnegative⟩ := generate_positions { loadBase := 0x100, symbols := e.symbols } e.program
  obtain ⟨output, target, _⟩ := positions _ _ _ m parts walk
  refine ⟨e, m, laid, expansion, walk, generation, addresses, ?_, ?_, ?_⟩
  · exact output.symm.trans (congrArg Cursor.output here)
  · exact target.symm.trans (congrArg Cursor.target here)
  · have above := nonnegative _ _ [] e expansion rfl (by simp)
    rw [generation] at above
    exact above

end Layout

end RuneAsm
