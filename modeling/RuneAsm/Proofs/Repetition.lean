import Mathlib
import RuneAsm.Proofs.Laying

namespace RuneAsm

open Run

-- The same program laid out twice. The first layout leaves addresses behind and, for labels that nobody declared, whole
-- entries of the label table; the second takes the addresses back and finds the entries already there. Whatever the
-- tokens are and wherever the first one stopped, this makes no difference.

namespace SymbolTable

variable {t u next : SymbolTable} {pending more : List Symbol} {name : String} {address : Int} {location : Location}

-- The second table has what the first has and, after it, entries that the first is still to get.
structure Ahead (pending : List Symbol) (t u : SymbolTable) : Prop where
  entries : u.entries = t.entries ++ pending
  unplaced : ∀ s ∈ pending, s.address = none
  new : ∀ s ∈ pending, s.name ∉ t.names
  apart : (pending.map (·.name)).Nodup

theorem Ahead.refl (t : SymbolTable) : Ahead [] t t := ⟨by simp, by simp, by simp, by simp⟩

theorem Ahead.eq (ahead : Ahead [] t u) : u = t := by
  obtain ⟨entries⟩ := u
  have same : entries = t.entries := by simpa using ahead.entries
  rw [same]

theorem Ahead.names_eq (ahead : Ahead pending t u) : u.names = t.names ++ pending.map (·.name) := by
  simp [names, ahead.entries]

theorem Ahead.trans (first : Ahead pending t u) (second : Ahead more u next) : Ahead (pending ++ more) t next := by
  refine ⟨by rw [second.entries, first.entries, List.append_assoc], ?_, ?_, ?_⟩
  · intro s member
    rcases List.mem_append.mp member with early | late
    · exact first.unplaced s early
    · exact second.unplaced s late
  · intro s member
    rcases List.mem_append.mp member with early | late
    · exact first.new s early
    · have absent := second.new s late
      rw [first.names_eq, List.mem_append, not_or] at absent
      exact absent.1
  · rw [List.map_append]
    refine first.apart.append second.apart ?_
    intro name early late
    obtain ⟨s, member, rfl⟩ := List.mem_map.mp late
    have absent := second.new s member
    rw [first.names_eq, List.mem_append, not_or] at absent
    exact absent.2 early

theorem clearAddresses_clearAddresses : t.clearAddresses.clearAddresses = t.clearAddresses := by
  simp [clearAddresses, Function.comp_def]

theorem clearAddresses_modifyAddress : (t.modifyAddress name address).clearAddresses = t.clearAddresses := by
  unfold clearAddresses modifyAddress
  rw [List.map_map]
  congr 2
  funext s
  by_cases same : s.name = name <;> simp [same]

theorem modifyAddress_absent {entries : List Symbol} (absent : name ∉ entries.map (·.name)) :
    entries.map (fun s => if s.name = name then { s with address := some address } else s) = entries := by
  conv_rhs => rw [← List.map_id entries]
  apply List.map_congr_left
  intro s member
  have other : s.name ≠ name := by
    rintro rfl
    exact absent (List.mem_map_of_mem member)
  rw [if_neg other]
  rfl

theorem Ahead.modifyAddress (ahead : Ahead pending t u) (known : name ∈ t.names) :
    Ahead pending (t.modifyAddress name address) (u.modifyAddress name address) := by
  have absent : name ∉ pending.map (·.name) := by
    intro member
    obtain ⟨s, there, rfl⟩ := List.mem_map.mp member
    exact ahead.new s there known
  refine ⟨?_, ahead.unplaced, ?_, ahead.apart⟩
  · unfold SymbolTable.modifyAddress
    rw [ahead.entries, List.map_append, modifyAddress_absent absent]
  · rw [names_modifyAddress]
    exact ahead.new

theorem Ahead.find?_known (ahead : Ahead pending t u) (known : name ∈ t.names) : u.find? name = t.find? name := by
  obtain ⟨s, found⟩ := find?_isSome.mpr known
  unfold find? at found ⊢
  rw [ahead.entries, List.find?_append, found]
  rfl

-- A name that both tables have is placed in both, or refused in both because of the same entry.
theorem Ahead.place_known (ahead : Ahead pending t u) (known : name ∈ t.names) (address : Int) (location : Location) :
    (∃ s, t.place name address location = .error s ∧ u.place name address location = .error s) ∨
    t.place name address location = .ok (t.modifyAddress name address) ∧
      u.place name address location = .ok (u.modifyAddress name address) := by
  obtain ⟨s, found⟩ := find?_isSome.mpr known
  unfold place
  rw [ahead.find?_known known, found]
  cases given : s.address with
  | some _ => exact .inl ⟨s, by simp [given], by simp [given]⟩
  | none => exact .inr ⟨by simp [given], by simp [given]⟩

-- A name that the first table is to get next is entered there and only placed in the second.
theorem Ahead.place_new (ahead : Ahead (⟨name, location, none, false⟩ :: more) t u) (address : Int) :
    ∃ next later, t.place name address location = .ok next ∧ u.place name address location = .ok later ∧
      Ahead more next later := by
  have new : name ∉ t.names := ahead.new _ List.mem_cons_self
  obtain ⟨fresh, apart⟩ := List.nodup_cons.mp ahead.apart
  have inFirst : t.find? name = none := find?_eq_none.mpr new
  have inSecond : u.find? name = some ⟨name, location, none, false⟩ := by
    unfold find? at inFirst ⊢
    rw [ahead.entries, List.find?_append, inFirst]
    simp
  refine ⟨⟨t.entries ++ [⟨name, location, some address, false⟩]⟩, u.modifyAddress name address, ?_, ?_, ?_, ?_, ?_, apart⟩
  · simp [place, inFirst]
  · simp [place, inSecond]
  · unfold SymbolTable.modifyAddress
    rw [ahead.entries, List.map_append, List.map_cons, modifyAddress_absent new, modifyAddress_absent fresh]
    simp
  · exact fun s member => ahead.unplaced s (List.mem_cons_of_mem _ member)
  · intro s member
    have absent := ahead.new s (List.mem_cons_of_mem _ member)
    have other : s.name ≠ name := by
      rintro rfl
      exact fresh (List.mem_map.mpr ⟨s, member, rfl⟩)
    simpa [names, other] using absent

end SymbolTable

namespace Run

variable {σ : Type}

def mapState (f : σ → σ) : Run σ → Run σ
  | .ok s => .ok (f s)
  | .error stop => .error ⟨stop.failure, f stop.state⟩

@[simp] theorem mapState_ok (f : σ → σ) (s : σ) : mapState f (.ok s) = .ok (f s) := rfl

@[simp] theorem mapState_error (f : σ → σ) (stop : Stop σ) :
    mapState f (.error stop) = .error ⟨stop.failure, f stop.state⟩ := rfl

end Run

namespace Layout

variable {l : Layout} {t : Token} {f g : Layout → Run Layout}

def withTable (table : SymbolTable) (l : Layout) : Layout := { l with symbols := table }

-- The activity enters these symbols. On a table that has them already it does the same and ends with the same table, but
-- for what this one is ahead by anyway.
structure Repeats (f : Layout → Run Layout) (l : Layout) (entered : List Symbol) : Prop where
  grown : SymbolTable.Ahead entered l.symbols.clearAddresses (f l).state.symbols.clearAddresses
  base : (f l).state.loadBase = l.loadBase
  again : ∀ later table, SymbolTable.Ahead (entered ++ later) l.symbols table →
    ∃ last, f (l.withTable table) = (f l).mapState (withTable last) ∧ SymbolTable.Ahead later (f l).state.symbols last

def Repeatable (f : Layout → Run Layout) : Prop := ∀ l, ∃ entered, Repeats f l entered

theorem Repeatable.andThen (first : Repeatable f) (second : Repeatable g) :
    Repeatable fun l => (f l).andThen g := by
  intro l
  obtain ⟨entered, once⟩ := first l
  cases ran : f l with
  | error stop =>
    refine ⟨entered, ?_, ?_, ?_⟩
    · simpa [ran] using once.grown
    · simpa [ran] using once.base
    · intro later table ahead
      obtain ⟨last, same, rest⟩ := once.again later table ahead
      exact ⟨last, by simp [same, ran], by simpa [ran] using rest⟩
  | ok middle =>
    obtain ⟨more, twice⟩ := second middle
    have grown := once.grown
    have base := once.base
    rw [ran] at grown base
    refine ⟨entered ++ more, ?_, ?_, ?_⟩
    · simpa [ran] using grown.trans twice.grown
    · simpa [ran] using twice.base.trans base
    · intro later table ahead
      rw [List.append_assoc] at ahead
      obtain ⟨between, same, rest⟩ := once.again (more ++ later) table ahead
      rw [ran] at same rest
      obtain ⟨last, sameLater, done⟩ := twice.again later between rest
      exact ⟨last, by simpa [ran, same] using sameLater, by simpa [ran] using done⟩

theorem repeatable_each {α : Type} {step : Layout → α → Run Layout} (items : List α)
    (each : ∀ x, Repeatable fun l => step l x) : Repeatable fun l => Run.each step l items := by
  induction items with
  | nil =>
    intro l
    refine ⟨[], .refl _, rfl, ?_⟩
    intro later table ahead
    exact ⟨table, rfl, ahead⟩
  | cons x rest ih => exact (each x).andThen ih

theorem placeLabel_of_ok {name : String} {next : SymbolTable}
    (placed : l.symbols.place name l.target t.location = .ok next) : l.placeLabel name t = .ok (l.withTable next) := by
  simp [placeLabel, placed, withTable]

theorem placeLabel_of_error {name : String} {s : Symbol}
    (refused : l.symbols.place name l.target t.location = .error s) : l.placeLabel name t =
      .error ⟨.report ⟨.duplicateLabel name (some s.location), some t.location, none⟩, l⟩ := by
  simp [placeLabel, refused, Run.fail]

theorem placeLabel_repeatable (name : String) (t : Token) : Repeatable fun l => l.placeLabel name t := by
  intro l
  by_cases known : name ∈ l.symbols.names
  · refine ⟨[], ?_⟩
    rcases (SymbolTable.Ahead.refl l.symbols).place_known known l.target t.location with
      ⟨s, refused, _⟩ | ⟨placed, _⟩
    · have stopped := placeLabel_of_error refused
      refine ⟨by rw [stopped]; exact .refl _, by rw [stopped]; rfl, ?_⟩
      intro later table ahead
      rcases ahead.place_known known l.target t.location with ⟨s', refused', again⟩ | ⟨placed, _⟩
      · rw [refused] at refused'
        cases refused'
        refine ⟨table, ?_, by rw [stopped]; exact ahead⟩
        rw [stopped]
        exact placeLabel_of_error (l := l.withTable table) again
      · rw [refused] at placed
        cases placed
    · have done := placeLabel_of_ok placed
      refine ⟨?_, by rw [done]; rfl, ?_⟩
      · rw [done]
        change SymbolTable.Ahead [] _ (l.symbols.modifyAddress name l.target).clearAddresses
        rw [SymbolTable.clearAddresses_modifyAddress]
        exact .refl _
      · intro later table ahead
        rcases ahead.place_known known l.target t.location with ⟨s, refused, _⟩ | ⟨_, again⟩
        · rw [refused] at placed
          cases placed
        · refine ⟨table.modifyAddress name l.target, ?_, by rw [done]; exact ahead.modifyAddress known⟩
          rw [done]
          exact placeLabel_of_ok (l := l.withTable table) again
  · let entry : Symbol := ⟨name, t.location, none, false⟩
    have absent : l.symbols.find? name = none := SymbolTable.find?_eq_none.mpr known
    have placed : l.symbols.place name l.target t.location =
        .ok ⟨l.symbols.entries ++ [{ entry with address := some l.target }]⟩ := by
      simp [SymbolTable.place, absent, entry]
    have done := placeLabel_of_ok placed
    refine ⟨[entry], ?_, by rw [done]; rfl, ?_⟩
    · rw [done]
      refine ⟨by simp [Run.state, withTable, SymbolTable.clearAddresses, entry], by simp [entry], ?_, by simp⟩
      simpa [entry, SymbolTable.names_clearAddresses] using known
    · intro later table ahead
      obtain ⟨next, last, first, again, rest⟩ := ahead.place_new l.target
      rw [placed] at first
      cases first
      refine ⟨last, ?_, by rw [done]; exact rest⟩
      rw [done]
      exact placeLabel_of_ok (l := l.withTable table) again

-- A token that places no label neither reads the table nor writes it, and none changes the load base.
theorem step_withTable (l : Layout) (unplaced : t.kind.places = []) (table : SymbolTable) :
    step (l.withTable table) t = (step l t).mapState (withTable table) ∧ (step l t).state.loadBase = l.loadBase := by
  unfold step
  cases kind : t.kind with
  | parentLabel label implied => simp [kind, TokenKind.places] at unplaced
  | childLabel label => simp [kind, TokenKind.places] at unplaced
  | subroutineClose label => simp [kind, TokenKind.places] at unplaced
  | literalHex value width =>
    unfold emitInstruction emitNumber
    dsimp only
    split
    · simp only [andThen_ok]
      split <;> exact ⟨rfl, rfl⟩
    · exact ⟨rfl, rfl⟩
  | rawHex value width =>
    unfold emitNumber
    dsimp only
    split <;> exact ⟨rfl, rfl⟩
  | opcode value =>
    unfold emitNumber
    dsimp only
    split <;> exact ⟨rfl, rfl⟩
  | reference r =>
    unfold emitReference emitInstruction
    dsimp only
    split
    · exact ⟨rfl, rfl⟩
    · split
      · exact ⟨rfl, rfl⟩
      · split <;> exact ⟨rfl, rfl⟩
  | _ => exact ⟨rfl, rfl⟩

theorem step_symbols (l : Layout) (unplaced : t.kind.places = []) : (step l t).state.symbols = l.symbols := by
  obtain ⟨same, _⟩ := step_withTable l unplaced l.symbols
  have self : l.withTable l.symbols = l := rfl
  rw [self] at same
  rw [same]
  cases step l t <;> rfl

theorem step_repeatable (t : Token) : Repeatable fun l => step l t := by
  by_cases unplaced : t.kind.places = []
  · intro l
    have symbols := step_symbols l unplaced
    refine ⟨[], by rw [symbols]; exact .refl _, (step_withTable l unplaced l.symbols).2, ?_⟩
    intro later table ahead
    exact ⟨table, (step_withTable l unplaced table).1, by rw [symbols]; exact ahead⟩
  · have placed : (fun l => step l t) = fun l => Run.each (fun l name => l.placeLabel name t) l t.kind.places :=
      funext fun l => step_places l unplaced
    rw [placed]
    exact repeatable_each _ fun name => placeLabel_repeatable name t

theorem linearize_again (l : Layout) (tokens : List Token) :
    (l.linearize tokens).state.linearize tokens = l.linearize tokens := by
  obtain ⟨entered, grown, base, again⟩ := repeatable_each tokens step_repeatable l.restart
  have cleared : l.restart.symbols.clearAddresses = l.restart.symbols := SymbolTable.clearAddresses_clearAddresses
  rw [cleared] at grown
  obtain ⟨last, same, ahead⟩ := again [] _ (by rw [List.append_nil]; exact grown)
  have start : (l.linearize tokens).state.restart =
      l.restart.withTable (l.linearize tokens).state.symbols.clearAddresses := by
    have kept : (l.linearize tokens).state.loadBase = l.loadBase := base
    unfold restart withTable
    rw [kept]
  change Run.each step (l.linearize tokens).state.restart tokens = _
  rw [start]
  change Run.each step (l.restart.withTable (Run.each step l.restart tokens).state.symbols.clearAddresses) tokens =
    Run.each step l.restart tokens
  rw [same, ahead.eq]
  cases Run.each step l.restart tokens <;> rfl

theorem resolveRecords_leaves (l : Layout) (records : List Record) :
    (l.resolveRecords records).state.symbols = l.symbols ∧ (l.resolveRecords records).state.loadBase = l.loadBase := by
  induction records generalizing l with
  | nil => exact ⟨rfl, rfl⟩
  | cons record rest ih =>
    unfold resolveRecords resolveRecord
    cases record.resolveIn l.symbols with
    | ok resolved => exact ih { l with records := l.records.push resolved }
    | error f => exact ⟨rfl, rfl⟩

-- The look-up of the operands keeps what the next layout starts from.
theorem restart_generate (l : Layout) (tokens : List Token) :
    (l.generate tokens).state.restart = (l.linearize tokens).state.restart := by
  unfold generate
  cases l.linearize tokens with
  | error stop => rfl
  | ok laid =>
    obtain ⟨symbols, base⟩ := resolveRecords_leaves { laid with records := #[] } laid.records.toList
    change (resolveRecords { laid with records := #[] } laid.records.toList).state.restart = laid.restart
    unfold restart
    rw [symbols, base]

-- Whatever tokens, table and load base a layout is given, and whether or not it succeeds, laying the tokens out once more
-- from what it left ends in the same way: with the same records, positions, table and load base, and with the same failure
-- if there was one.
theorem generate_again (l : Layout) (tokens : List Token) :
    (l.generate tokens).state.generate tokens = l.generate tokens := by
  have walked : (l.generate tokens).state.linearize tokens = l.linearize tokens := by
    calc (l.generate tokens).state.linearize tokens
        = Run.each step (l.generate tokens).state.restart tokens := rfl
      _ = Run.each step (l.linearize tokens).state.restart tokens := by rw [restart_generate]
      _ = l.linearize tokens := linearize_again l tokens
  unfold generate at walked ⊢
  rw [walked]

end Layout

end RuneAsm
