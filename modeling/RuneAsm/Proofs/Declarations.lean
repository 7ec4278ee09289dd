import Mathlib
import RuneAsm.Proofs.Custody

namespace RuneAsm

open Run

-- The labels of a program in the order in which they are read. Each declares itself where it stands, and the parent
-- that its name begins with if no label has declared that one before; the table of labels is the record of this. So a
-- parent comes from the first of its labels that is read, whatever becomes of the tokens later.

instance : DecidablePred Plain := fun name => inferInstanceAs (Decidable (∀ c ∈ name.toList, isBlank c = false))

theorem plain_parentOf {label parent : String} (plain : Plain label) (found : parentOf label = some parent) :
    Plain parent := by
  unfold parentOf at found
  split at found
  · cases found
    exact plain_ofList.mpr fun c member => plain c ((List.takeWhile_sublist _).subset member)
  · cases found

-- A parent has no parent of its own.
theorem parentOf_parentOf {label parent : String} (found : parentOf label = some parent) : parentOf parent = none := by
  unfold parentOf at found
  split at found
  · cases found
    have slashless : '/' ∉ label.toList.takeWhile (· ≠ '/') := by
      intro member
      have differs := List.mem_takeWhile_imp member
      simp at differs
    simpa [parentOf] using slashless
  · cases found

def namedLabels (tokens : List Token) : List Token := tokens.filter (·.kind.isNamed)

def Token.declared (t : Token) : List Symbol := Reader.declared t.location t.kind

-- The table of what the labels declare, one after the other.
def tableOf (trail : List Token) : SymbolTable := ⟨trail.flatMap Token.declared⟩

theorem mem_names_tableOf {trail : List Token} {name : String} :
    name ∈ (tableOf trail).names ↔ ∃ t ∈ trail, name ∈ t.kind.places := by
  simp [tableOf, SymbolTable.names, Token.declared, Reader.declared]

-- Labels as they can follow each other in texts.
inductive Trail : List Token → Prop where
  | nil : Trail []
  | snoc {trail : List Token} {t : Token} (earlier : Trail trail) (named : t.kind.isNamed = true)
      (regular : t.kind.Regular) (formed : Reader.Formed (tableOf trail) t.kind) : Trail (trail ++ [t])

-- The label is the parent's own, or one that is written with the parent's name.
def TokenKind.isUnder (parent : String) : TokenKind → Bool
  | .parentLabel label _ => label = parent ∨ parentOf label = some parent
  | _ => false

namespace Trail

variable {trail front back : List Token} {t u : Token} {label parent : String} {implied : Option String}

theorem split (whole : Trail trail) (parts : trail = front ++ t :: back) :
    t.kind.isNamed = true ∧ t.kind.Regular ∧ Reader.Formed (tableOf front) t.kind := by
  induction whole generalizing back with
  | nil => simp at parts
  | @snoc earlier last before named regular formed ih =>
    rcases List.eq_nil_or_concat' back with rfl | ⟨back, final, rfl⟩
    · obtain ⟨rfl, rfl⟩ : earlier = front ∧ last = t := by simpa using parts
      exact ⟨named, regular, formed⟩
    · obtain ⟨shorter, _⟩ := List.append_inj' (parts.trans (List.append_assoc front (t :: back) [final]).symm) rfl
      exact ih shorter

theorem named (whole : Trail trail) (member : t ∈ trail) : t.kind.isNamed = true := by
  obtain ⟨front, back, parts⟩ := List.append_of_mem member
  exact (whole.split parts).1

-- The label that gives a parent its place is its own or the one that implies it.
theorem places_parent (whole : Trail trail) (member : t ∈ trail) (slashless : parentOf parent = none)
    (places : parent ∈ t.kind.places) :
    ∃ own implied, t.kind = .parentLabel own implied ∧
      (own = parent ∨ implied = some parent ∧ parentOf own = some parent) := by
  obtain ⟨front, back, parts⟩ := List.append_of_mem member
  obtain ⟨named, _, formed⟩ := whole.split parts
  cases kind : t.kind with
  | parentLabel own implied =>
    refine ⟨own, implied, rfl, ?_⟩
    rw [kind] at places formed
    rcases List.mem_append.mp places with above | self
    · have implies : implied = some parent := Option.mem_toList.mp above
      have filtered : (parentOf own).filter (fun p => !(tableOf front).contains p) = some parent :=
        formed.symm.trans implies
      exact .inr ⟨implies, (Option.filter_eq_some_iff.mp filtered).1⟩
    · exact .inl (List.mem_singleton.mp self).symm
  | childLabel own =>
    rw [kind] at places formed
    obtain rfl : parent = own := by simpa [TokenKind.places] using places
    have parented : (parentOf parent).isSome := formed
    rw [slashless] at parented
    cases parented
  | _ => simp [kind, TokenKind.isNamed] at named

theorem declares_parent (whole : Trail trail) (parts : trail = front ++ t :: back)
    (kind : t.kind = .parentLabel label implied) (above : parentOf label = some parent) :
    parent ∈ (tableOf front).names ∨ implied = some parent := by
  obtain ⟨_, _, formed⟩ := whole.split parts
  rw [kind] at formed
  by_cases known : (tableOf front).contains parent = true
  · exact .inl (SymbolTable.contains_iff.mp known)
  · right
    rw [show implied = (parentOf label).filter (fun p => !(tableOf front).contains p) from formed, above]
    simp [Option.filter_some, known]

-- The first that is read declares the parent.
theorem first_places (whole : Trail trail) (slashless : parentOf parent = none)
    (first : trail.find? (·.kind.isUnder parent) = some t) :
    ∃ front back, trail = front ++ t :: back ∧ parent ∉ (tableOf front).names ∧ parent ∈ t.kind.places := by
  obtain ⟨here, front, back, parts, before⟩ := List.find?_eq_some_iff_append.mp first
  have new : parent ∉ (tableOf front).names := by
    intro known
    obtain ⟨u, earlier, places⟩ := mem_names_tableOf.mp known
    have member : u ∈ trail := by simp [parts, earlier]
    obtain ⟨own, implied, kind, cases⟩ := whole.places_parent member slashless places
    have other := before u earlier
    rw [kind] at other
    rcases cases with self | ⟨_, above⟩
    · simp [TokenKind.isUnder, self] at other
    · simp [TokenKind.isUnder, above] at other
  refine ⟨front, back, parts, new, ?_⟩
  cases kind : t.kind with
  | parentLabel label implied =>
    have under : label = parent ∨ parentOf label = some parent := by simpa [kind, TokenKind.isUnder] using here
    rcases under with rfl | above
    · simp [TokenKind.places]
    · have implies := (whole.declares_parent parts kind above).resolve_left new
      simp [TokenKind.places, implies]
  | _ => simp [kind, TokenKind.isUnder] at here

end Trail

-- The entries under names that words have.
def SymbolTable.worded (t : SymbolTable) : List Symbol := t.entries.filter (Plain ·.name)

structure Records (symbols : SymbolTable) (trail : List Token) : Prop where
  possible : Trail trail
  table : symbols.worded = (tableOf trail).entries

theorem names_tableOf (trail : List Token) : (tableOf trail).names = trail.flatMap (·.kind.places) := by
  simp only [tableOf, SymbolTable.names, Token.declared, Reader.declared, List.map_flatMap, List.map_map]
  congr 1
  funext t
  simp [Function.comp_def]

namespace Records

variable {symbols later : SymbolTable} {trail : List Token} {name : String} {t : Token}

theorem find? (records : Records symbols trail) (plain : Plain name) :
    symbols.find? name = (tableOf trail).find? name := by
  unfold SymbolTable.find?
  rw [← records.table, SymbolTable.worded, List.find?_filter]
  refine congrArg (fun q => symbols.entries.find? q) (funext fun s => ?_)
  by_cases same : s.name = name
  · simp [same, plain]
  · simp [same]

theorem contains (records : Records symbols trail) (plain : Plain name) :
    (tableOf trail).contains name = symbols.contains name := by
  rw [Bool.eq_iff_iff, SymbolTable.contains_iff, SymbolTable.contains_iff, ← SymbolTable.find?_isSome,
    ← SymbolTable.find?_isSome, records.find? plain]

-- Labels of inline subroutines come and go without a trace.
theorem congr (records : Records symbols trail) (same : later.worded = symbols.worded) : Records later trail :=
  ⟨records.possible, same.trans records.table⟩

-- No two labels place the same name.
theorem apart (records : Records symbols trail) (distinct : symbols.Distinct) :
    trail.Pairwise fun t u => List.Disjoint t.kind.places u.kind.places := by
  have unique : (tableOf trail).names.Nodup := by
    rw [SymbolTable.names, ← records.table]
    exact distinct.sublist (List.filter_sublist.map _)
  rw [names_tableOf] at unique
  exact (List.nodup_flatMap.mp unique).2

theorem unique {u : Token} (records : Records symbols trail) (distinct : symbols.Distinct) (first : t ∈ trail)
    (second : u ∈ trail) (here : name ∈ t.kind.places) (there : name ∈ u.kind.places) : t = u := by
  by_contra different
  have : Std.Symm fun t u : Token => List.Disjoint t.kind.places u.kind.places := ⟨fun _ _ => List.Disjoint.symm⟩
  exact (records.apart distinct).forall first second different here there

theorem formed (records : Records symbols trail) (regular : t.kind.Regular) (formed : Reader.Formed symbols t.kind) :
    Reader.Formed (tableOf trail) t.kind := by
  cases kind : t.kind with
  | parentLabel label implied =>
    rw [kind] at formed regular
    rw [Reader.Formed] at formed ⊢
    rw [formed]
    cases above : parentOf label with
    | none => rfl
    | some parent => rw [Option.filter_some, Option.filter_some, records.contains (plain_parentOf regular.1 above)]
  | childLabel label =>
    rw [kind] at formed
    exact formed
  | _ => trivial

theorem snoc (records : Records symbols trail) (named : t.kind.isNamed = true) (regular : t.kind.Regular)
    (formed : Reader.Formed symbols t.kind) (entries : later.entries = symbols.entries ++ t.declared) :
    Records later (trail ++ [t]) := by
  refine ⟨.snoc records.possible named regular (records.formed regular formed), ?_⟩
  have worded : t.declared.filter (Plain ·.name) = t.declared := by
    apply List.filter_eq_self.mpr
    intro s member
    obtain ⟨name, places, rfl⟩ := List.mem_map.mp member
    have plain : Plain name := by
      cases kind : t.kind with
      | parentLabel label implied =>
        rw [kind] at places regular
        rcases List.mem_append.mp places with above | self
        · exact regular.2 name (Option.mem_toList.mp above)
        · exact List.mem_singleton.mp self ▸ regular.1
      | childLabel label =>
        rw [kind] at places regular
        exact List.mem_singleton.mp places ▸ regular
      | _ => simp [kind, TokenKind.isNamed] at named
    simpa using plain
  rw [SymbolTable.worded, entries, List.filter_append, worded]
  change symbols.worded ++ _ = _
  simp [records.table, tableOf]

end Records

namespace Reader

variable {r next : Reader} {text : List Char} {kind : TokenKind} {spacing : Bool} {trail : List Token}

-- The labels of the text follow those that were read before it.
def Trailed (trail : List Token) (r : Reader) : Prop := Records r.symbols (trail ++ namedLabels r.tokens.toList)

theorem unclosed_unnamed (unclosed : Unclosed kind) : kind.isNamed = false := by
  rcases unclosed with rfl | ⟨form, _, rfl⟩ <;> rfl

theorem closedBy_unnamed {opener : Token} (closer : Nat) (label : Option String) (unclosed : Unclosed opener.kind) :
    (opener.closedBy closer label).kind.isNamed = false := by
  rcases unclosed with group | ⟨form, _, kind⟩
  · simp [Token.closedBy, group, TokenKind.isNamed]
  · simp [Token.closedBy, kind, TokenKind.isNamed]

theorem Closes.worded {symbols : SymbolTable} (closes : Closes r kind symbols) :
    symbols.worded = r.symbols.worded ∧ kind.isNamed = false := by
  cases closes with
  | group => exact ⟨rfl, rfl⟩
  | brace defined =>
    refine ⟨?_, rfl⟩
    rw [SymbolTable.worded, (SymbolTable.define_ok_iff.mp defined).2, List.filter_append, SymbolTable.worded]
    simp [anonymousLabel_not_plain]

theorem trailed_pushed {scope : Scope} {symbols : SymbolTable} {journal : Journal} (trailed : Trailed trail r)
    (regular : kind.Regular) (closesNone : kind.closes? = none)
    (declares : Declares r.location kind r.symbols symbols) :
    Trailed trail { r with
      scope, symbols, journal, latest := r.latest.push (r.token text kind), nextId := r.nextId + 1 } := by
  have grown : namedLabels (Reader.tokens { r with
      scope, symbols, journal, latest := r.latest.push (r.token text kind), nextId := r.nextId + 1 }).toList =
      namedLabels r.tokens.toList ++ namedLabels [r.token text kind] := by
    simp [namedLabels, tokens_toList]
  rw [Trailed, grown, ← List.append_assoc]
  cases named : kind.isNamed with
  | true =>
    have last : namedLabels [r.token text kind] = [r.token text kind] := by simp [namedLabels, token, named]
    rw [last]
    exact Records.snoc trailed named regular declares.formed declares.entries
  | false =>
    have none : namedLabels [r.token text kind] = [] := by simp [namedLabels, token, named]
    have same : symbols.entries = r.symbols.entries := by
      simp [declares.entries, declared, TokenKind.places_eq_nil named closesNone]
    rw [none, List.append_nil]
    refine trailed.congr ?_
    rw [SymbolTable.worded, same, SymbolTable.worded]

theorem trailed_closed {frame : Frame} {outer : List Frame} {symbols : SymbolTable} {journal : Journal}
    (trailed : Trailed trail r) (frames : r.frames = frame :: outer) (unclosed : Unclosed frame.opener.kind)
    (closes : Closes r kind symbols) :
    Trailed trail ({ r with symbols, journal }.pair frame outer text kind) := by
  obtain ⟨same, unnamed⟩ := closes.worded
  have labels : namedLabels ({ r with symbols, journal }.pair frame outer text kind).tokens.toList =
      namedLabels r.tokens.toList := by
    rw [pair_tokens, tokens_toList, frames, outside_cons]
    simp [namedLabels, token, unnamed, closedBy_unnamed _ _ unclosed, unclosed_unnamed unclosed]
  rw [Trailed, labels]
  exact trailed.congr same

theorem trailed_taken (trailed : Trailed trail r) (frames : ∀ frame ∈ r.frames, Unclosed frame.opener.kind)
    (taken : Taken r text spacing next) : Trailed trail next := by
  cases taken with
  | pushed regular _ closesNone _ _ declares => exact trailed_pushed trailed regular closesNone declares
  | @opened kind unclosed =>
    have labels : namedLabels (outside (⟨r.latest, r.token text kind⟩ :: r.frames) ++ #[].toList) =
        namedLabels r.tokens.toList := by
      rw [outside_cons, tokens_toList]
      simp [namedLabels, token, unclosed_unnamed unclosed]
    rw [Trailed, tokens_toList, labels]
    exact trailed
  | closed framed closes => exact trailed_closed trailed framed (frames _ (by simp [framed])) closes

theorem step_trailed {symbols : SymbolTable} {nextId : Nat} {lexeme : Lexeme} (coherent : Coherent symbols nextId r)
    (trailed : Trailed trail r) (proper : lexeme.Proper) :
    Ends (fun next => Coherent symbols nextId next ∧ Trailed trail next) (Failure.Within faults) (r.step lexeme) := by
  have taken := take_taken coherent.inScope proper
  have kept := step_coherent coherent proper
  cases ran : r.step lexeme with
  | error stop => exact kept.error ran
  | ok next =>
    refine ⟨kept.ok ran, ?_⟩
    unfold step at ran
    cases took : r.take lexeme with
    | error stop =>
      rw [took] at ran
      cases ran
    | ok middle =>
      rw [took] at ran
      cases ran
      obtain ⟨line, column, moved⟩ := foldl_advance lexeme.text middle
      have after : Trailed trail middle :=
        trailed_taken trailed (fun frame member => (coherent.frames frame member).2) (taken.ok took)
      change Trailed trail (lexeme.text.foldl advance middle)
      rw [moved]
      exact after

theorem run_trailed {symbols : SymbolTable} {nextId : Nat} (coherent : Coherent symbols nextId r)
    (trailed : Trailed trail r) :
    Ends (fun next => Coherent symbols nextId next ∧ Trailed trail next) (Failure.Within faults) r.run := by
  have kept : Ends _ (Failure.Within faults) (Run.each step r (Lexeme.all r.source)) := ends_each
    (fun rest r => (Coherent symbols nextId r ∧ Trailed trail r) ∧ ∀ lexeme ∈ rest, lexeme.Proper)
    (fun r lexeme rest before => (step_trailed before.1.1 before.1.2 (before.2 lexeme (by simp))).mono
      (fun next after => ⟨after, fun other member => before.2 other (List.mem_cons_of_mem _ member)⟩)
      (fun _ failed => failed))
    ⟨⟨coherent, trailed⟩, Lexeme.all_proper r.source⟩
  apply kept.andThen
  intro last reached
  unfold finish
  split
  · exact reached.1
  · exact ⟨_, rfl, by simp [Cause.kind, faults]⟩

end Reader

-- What a text adds: tokens with the next serial numbers, and the labels among them to the trail.
theorem Expander.read_records {e lexed : Expander} {settings : Settings} {source : List Char} {file : String}
    (distinct : e.symbols.Distinct) (ran : e.read settings source file = .ok lexed) :
    lexed.macros = e.macros ∧ e.nextId ≤ lexed.nextId ∧
    (∀ u ∈ lexed.program, e.nextId ≤ u.id ∧ u.id < lexed.nextId) ∧
    ∀ trail, Records e.symbols trail → Records lexed.symbols (trail ++ namedLabels lexed.program) := by
  have coherent : (e.reader settings source file).Coherent e.symbols e.nextId :=
    Reader.coherent_start (r := e.reader settings source file) distinct (by simp [reader, Reader.InScope]) rfl rfl
  rw [read_eq] at ran
  cases read : (e.reader settings source file).run with
  | error stop =>
    rw [read] at ran
    cases ran
  | ok r =>
    rw [read] at ran
    cases ran
    have reached := (Reader.run_coherent coherent).ok read
    obtain ⟨count, number, serials⟩ := reached.1.serials
    refine ⟨rfl, ?_, ?_, ?_⟩
    · change e.nextId ≤ r.nextId
      omega
    · intro u member
      have ranged : u.id ∈ List.range' e.nextId count := serials ▸ List.mem_map_of_mem member
      change e.nextId ≤ u.id ∧ u.id < r.nextId
      rw [number]
      exact List.mem_range'_1.mp ranged
    · intro trail records
      have start : (e.reader settings source file).Trailed trail := by
        have none : (e.reader settings source file).tokens.toList = [] := rfl
        rw [Reader.Trailed, none, namedLabels, List.filter_nil, List.append_nil]
        exact records
      exact ((Reader.run_trailed coherent start).ok read).2

end RuneAsm
