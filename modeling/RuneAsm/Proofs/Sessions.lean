import Mathlib
import RuneAsm.Proofs.Moments
import RuneAsm.Proofs.ParentNames
import RuneAsm.Proofs.Respacing.Shapes

namespace RuneAsm

open Run

-- Sessions: texts are read and programs are expanded, one after the other, over one table of labels. A text is read in
-- a scope of its own or in one that an earlier reading has left, an expansion is given tokens of earlier ones, and any
-- of them may stop at an error. Taking out the body of a macro removes a label from the table; it is the one of the
-- brace that ends the body, because the partner of a bracket stays a bracket in whatever is done with the tokens.

-- A definition counts as captured from the time on when its body was taken out.
inductive Given (tokens : List Token) : Token → Prop where
  | held {t : Token} (member : t ∈ tokens) : Given tokens t
  | captured {t : Token} {name : String} (member : t ∈ tokens) (kind : t.kind = .macroDefinition name false) :
      Given tokens { t with kind := .macroDefinition name true }

-- Tokens with serial numbers in a range. If the partner of a bracket that can open a body is among them, it closes.
structure Paired (low high : Nat) (tokens : List Token) : Prop where
  serial : ∀ t ∈ tokens, low ≤ t.id ∧ t.id < high
  blank : ∀ label ∈ closerLabels tokens, ¬ Plain label
  partner : ∀ t ∈ tokens, Expander.opensBody t.kind = true → ∀ n, t.partner = some n →
    (low ≤ n ∧ n < high) ∧ ∀ u ∈ tokens, u.id = n → u.kind.closes?.isSome = true

namespace Paired

variable {low mid high : Nat} {tokens front back more : List Token}

theorem nil (low high : Nat) : Paired low high [] := ⟨by simp, by simp, by simp⟩

theorem given (paired : Paired low high tokens) (given : ∀ t ∈ more, Given tokens t) : Paired low high more where
  serial t member := by
    cases given t member with
    | held there => exact paired.serial t there
    | @captured original _ there _ => exact paired.serial original there
  blank label member := by
    obtain ⟨t, here, kind⟩ := mem_closerLabels.mp member
    cases given t here with
    | held there => exact paired.blank label (mem_closerLabels.mpr ⟨t, there, kind⟩)
    | captured _ _ => cases kind
  partner t member opens n forth := by
    cases given t member with
    | captured _ _ => cases opens
    | held there =>
      obtain ⟨range, closes⟩ := paired.partner t there opens n forth
      refine ⟨range, ?_⟩
      intro u here serial
      cases given u here with
      | held known => exact closes u known serial
      | captured known kind =>
        have closing := closes _ known serial
        rw [kind] at closing
        cases closing

theorem subset (paired : Paired low high tokens) (fewer : more ⊆ tokens) : Paired low high more :=
  paired.given fun _ member => .held (fewer member)

theorem raise (paired : Paired low mid tokens) (later : mid ≤ high) : Paired low high tokens where
  serial t member := ⟨(paired.serial t member).1, Nat.lt_of_lt_of_le (paired.serial t member).2 later⟩
  blank := paired.blank
  partner t member opens n forth := by
    obtain ⟨⟨above, below⟩, closes⟩ := paired.partner t member opens n forth
    exact ⟨⟨above, Nat.lt_of_lt_of_le below later⟩, closes⟩

-- Later tokens have later serial numbers, so no bracket has its partner on the other side.
theorem append (first : Paired low mid front) (second : Paired mid high back) (start : low ≤ mid) (later : mid ≤ high) :
    Paired low high (front ++ back) where
  serial t member := by
    rcases List.mem_append.mp member with old | new
    · exact (first.raise later).serial t old
    · obtain ⟨above, below⟩ := second.serial t new
      exact ⟨Nat.le_trans start above, below⟩
  blank label member := by
    rw [closerLabels_append] at member
    rcases List.mem_append.mp member with old | new
    · exact first.blank label old
    · exact second.blank label new
  partner t member opens n forth := by
    rcases List.mem_append.mp member with old | new
    · obtain ⟨⟨above, below⟩, closes⟩ := first.partner t old opens n forth
      refine ⟨⟨above, Nat.lt_of_lt_of_le below later⟩, ?_⟩
      intro u here serial
      rcases List.mem_append.mp here with early | late
      · exact closes u early serial
      · have beyond := (second.serial u late).1
        omega
    · obtain ⟨⟨above, below⟩, closes⟩ := second.partner t new opens n forth
      refine ⟨⟨Nat.le_trans start above, below⟩, ?_⟩
      intro u here serial
      rcases List.mem_append.mp here with early | late
      · have before := (first.serial u early).2
        omega
      · exact closes u late serial

end Paired

-- What a text is read into is balanced, and its serial numbers are consecutive.
theorem Reader.run_paired {r next : Reader} (distinct : r.symbols.Distinct) (inScope : InScope r.scope)
    (frames : r.frames = []) (latest : r.latest = #[]) (ran : r.run = .ok next) :
    Paired r.nextId next.nextId next.tokens.toList := by
  obtain ⟨reached, orderly⟩ := (run_coherent (coherent_start distinct inScope frames latest)).ok ran
  obtain ⟨count, number, serials⟩ := reached.serials
  have ranged (t : Token) (member : t ∈ next.tokens.toList) : r.nextId ≤ t.id ∧ t.id < next.nextId := by
    have there : t.id ∈ List.range' r.nextId count := serials ▸ List.mem_map_of_mem member
    rw [number]
    exact List.mem_range'_1.mp there
  refine ⟨ranged, ?_, ?_⟩
  · intro label member
    obtain ⟨t, there, kind⟩ := mem_closerLabels.mp member
    have regular := orderly.regular t there
    rw [kind] at regular
    exact regular
  · intro t member opens n forth
    obtain ⟨c, bracket⟩ := closer?_of_opensBody (orderly.regular t member) opens
    obtain ⟨front, back, parts⟩ := List.append_of_mem member
    have balanced : Nesting [] (front ++ t :: back) [] := parts ▸ orderly.balanced
    obtain ⟨inside, closer, rest, later, _, pairs⟩ := balanced.partner bracket
    have there : closer ∈ next.tokens.toList := by simp [parts, later]
    have same : n = closer.id := Option.some.inj (forth.symm.trans pairs.forth)
    refine ⟨same ▸ ranged closer there, ?_⟩
    intro u here serial
    have unique : (next.tokens.toList.map (·.id)).Nodup := serials ▸ List.nodup_range' 1
    have equal : u = closer := List.inj_on_of_nodup_map unique here there (serial.trans same)
    obtain ⟨_, _, closes⟩ := pairs.bracket
    simp [equal, closes]

namespace Expander

theorem bodySpan_partner {tokens : List Token} {span : BodySpan} (found : bodySpan tokens = .ok span) :
    opensBody span.opener.kind = true ∧ span.opener.partner = some span.closer.id := by
  unfold bodySpan at found
  split at found
  · cases found
  · rename_i opener after _
    split at found
    · rename_i opens
      split at found
      · cases found
      · rename_i closer rest dropped
        cases found
        refine ⟨opens, ?_⟩
        have stops := List.head?_dropWhile_not (fun t : Token => decide (some t.id ≠ opener.partner)) after
        rw [dropped] at stops
        have same : some closer.id = opener.partner := by simpa using stops
        exact same.symm
    · cases found

-- The label that capturing removes is never one of a word.
theorem bodySpan_blank {low high : Nat} {held tokens : List Token} {span : BodySpan} {label : String}
    (paired : Paired low high held) (given : tokens ⊆ held) (found : bodySpan tokens = .ok span)
    (labelled : span.closer.kind.label? = some label) : ¬ Plain label := by
  have parts := bodySpan_parts found
  obtain ⟨opens, forth⟩ := bodySpan_partner found
  have opener : span.opener ∈ held := given (by simp [parts])
  have closer : span.closer ∈ held := given (by simp [parts])
  have closes := (paired.partner _ opener opens _ forth).2 _ closer rfl
  obtain ⟨c, closing⟩ := Option.isSome_iff_exists.mp closes
  rw [label?_of_closes? closing] at labelled
  exact paired.blank label (mem_closerLabels.mpr ⟨_, closer, TokenKind.closerLabel?_eq_some.mp labelled⟩)

-- A copy is paired as its body is.
theorem copyBody_paired {low high base : Nat} {held body : List Token} {f : String → String}
    (paired : Paired low high held) (stored : body ⊆ held) (blank : ∀ label, ¬ Plain label → ¬ Plain (f label)) :
    Paired base (base + body.length) (copyBody base body f) := by
  have entry {u : Token} (member : u ∈ copyBody base body f) : ∃ (i : Nat) (within : i < body.length),
      u.id = base + i ∧ u.kind = body[i].kind.mapLabel f ∧
      u.partner = body[i].partner.bind fun n => (body.findIdx? (·.id = n)).map (base + ·) := by
    obtain ⟨i, within, rfl⟩ := List.mem_iff_getElem.mp member
    have inside : i < body.length := by simpa [copyBody, freshCopy] using within
    exact ⟨i, inside, by simp [copyBody, freshCopy], by simp [copyBody, freshCopy], by simp [copyBody, freshCopy]⟩
  refine ⟨?_, ?_, ?_⟩
  · intro u member
    obtain ⟨i, within, serial, _, _⟩ := entry member
    omega
  · intro label member
    obtain ⟨u, there, kind⟩ := mem_closerLabels.mp member
    obtain ⟨i, within, _, copied, _⟩ := entry there
    have closes : (body[i].kind.mapLabel f).closerLabel? = some label :=
      TokenKind.closerLabel?_eq_some.mpr (copied.symm.trans kind)
    rw [mapLabel_closerLabel?] at closes
    obtain ⟨old, oldCloses, rfl⟩ := Option.map_eq_some_iff.mp closes
    exact blank old (paired.blank old
      (mem_closerLabels.mpr ⟨_, stored (List.getElem_mem within), TokenKind.closerLabel?_eq_some.mp oldCloses⟩))
  · intro u member opens n forth
    obtain ⟨i, within, _, kind, partner⟩ := entry member
    rw [kind, mapLabel_opensBody] at opens
    obtain ⟨old, oldForth, found⟩ := Option.bind_eq_some_iff.mp (partner.symm.trans forth)
    obtain ⟨j, first, rfl⟩ := Option.map_eq_some_iff.mp found
    obtain ⟨inside, serial, _⟩ := List.findIdx?_eq_some_iff_getElem.mp first
    refine ⟨by omega, ?_⟩
    intro v here same
    obtain ⟨k, _, number, copied, _⟩ := entry here
    obtain rfl : k = j := by omega
    rw [copied, mapLabel_closes?]
    exact (paired.partner _ (stored (List.getElem_mem within)) opens old oldForth).2 _
      (stored (List.getElem_mem inside)) (by simpa using serial)

end Expander

structure Session where
  symbols : SymbolTable := {}
  nextId : Nat := 0
  -- All scopes that readings have left, at whatever time.
  scopes : List Scope := []
  -- All tokens that readings and expansions have given.
  tokens : List Token := []

namespace MacroTable

-- The bodies that come with definitions from other tables are there too, whether they have been entered or not.
def held (t : MacroTable) : List Token := t.bodies ++ t.carried.flatMap (·.2)

theorem broughtBy_held (t : MacroTable) (id : Nat) : t.broughtBy id ⊆ t.held := by
  unfold broughtBy
  cases found : t.carried.lookup id with
  | none => exact List.nil_subset _
  | some body =>
    obtain ⟨front, back, parts, _⟩ := List.lookup_eq_some_iff.mp found
    intro u member
    simpa [held, parts] using .inr (.inr (.inl member))

theorem define_held {macros next : MacroTable} {m : Macro} (defined : macros.define m = .ok next) :
    next.held ⊆ macros.held ++ m.body := by
  unfold define at defined
  split at defined
  · cases defined
    unfold held
    rw [bodies_enter]
    intro u member
    simp only [enter, List.mem_append] at member ⊢
    tauto
  · split at defined
    · cases defined
      exact List.subset_append_left _ _
    · cases defined

end MacroTable

namespace Session

variable {s : Session} {scope : Scope} {label : String}

def reader (s : Session) (file : String) (source : List Char) (checkComments : Bool) (scope : Scope)
    (journal : Journal) : Reader :=
  { file, source, checkComments, scope, symbols := s.symbols, journal, nextId := s.nextId }

-- A reading that stops gives no tokens, but it has changed the table and the scope.
def afterReading (s : Session) (x : Run Reader) : Session where
  symbols := x.state.symbols
  nextId := x.state.nextId
  scopes := x.state.scope :: s.scopes
  tokens := s.tokens ++ x.toOption.elim [] (·.tokens.toList)

def afterExpansion (s : Session) (x : Run Expander) : Session :=
  { s with
    symbols := x.state.symbols
    nextId := x.state.nextId
    tokens := s.tokens ++ (x.state.program ++ x.state.macros.bodies) }

-- An expansion of tokens from the session, with macros whose bodies are from the session too. An earlier expansion may
-- have taken out the body of a definition among them; it comes along with the definition.
structure Offers (s : Session) (e : Expander) : Prop where
  symbols : e.symbols = s.symbols
  nextId : e.nextId = s.nextId
  tokens : ∀ t ∈ e.program ++ e.macros.held, Given s.tokens t

inductive Reached : Session → Prop where
  | start : Reached {}
  | read {s : Session} {scope : Scope} (earlier : Reached s) (shared : scope = {} ∨ scope ∈ s.scopes) (file : String)
      (source : List Char) (checkComments : Bool) (journal : Journal) :
      Reached (s.afterReading (s.reader file source checkComments scope journal).run)
  | expand {s : Session} {e : Expander} (earlier : Reached s) (offers : s.Offers e) (ctx : Context) :
      Reached (s.afterExpansion (Expander.process ctx e))

structure Intact (s : Session) : Prop where
  table : s.symbols.ParentClosed
  scopes : ∀ scope ∈ s.scopes, scope.Rooted s.symbols
  tokens : Paired 0 s.nextId s.tokens

namespace Intact

theorem start : Intact {} := ⟨SymbolTable.parentClosed_empty, by simp, .nil 0 0⟩

-- Names with a blank may go.
theorem table_changed {table : SymbolTable} (intact : s.Intact) (closed : table.ParentClosed)
    (kept : ∀ name ∈ s.symbols.names, Plain name → name ∈ table.names) : Intact { s with symbols := table } :=
  ⟨closed, fun scope member => (intact.scopes scope member).mono kept, intact.tokens⟩

theorem erase (intact : s.Intact) (blank : ¬ Plain label) : Intact { s with symbols := s.symbols.erase label } := by
  apply intact.table_changed (intact.table.erase blank)
  intro name member plain
  refine SymbolTable.mem_names_erase.mpr ⟨member, ?_⟩
  rintro rfl
  exact blank plain

theorem tokens_given {tokens : List Token} (intact : s.Intact) (given : ∀ t ∈ tokens, Given s.tokens t) :
    Intact { s with tokens } := ⟨intact.table, intact.scopes, intact.tokens.given given⟩

theorem read (intact : s.Intact) (rooted : scope.Rooted s.symbols) (file : String) (source : List Char)
    (checkComments : Bool) (journal : Journal) :
    Intact (s.afterReading (s.reader file source checkComments scope journal).run) := by
  have reached := Reader.run_rooted (r := s.reader file source checkComments scope journal) intact.table rooted
  refine ⟨reached.table, ?_, ?_⟩
  · intro other member
    rcases List.mem_cons.mp member with rfl | old
    · exact reached.scope
    · exact (intact.scopes other old).mono fun name known _ => reached.kept known
  · have later : s.nextId ≤ (s.reader file source checkComments scope journal).run.state.nextId := reached.serials
    change Paired 0 (s.reader file source checkComments scope journal).run.state.nextId (s.tokens ++ _)
    cases ran : (s.reader file source checkComments scope journal).run with
    | error stop =>
      rw [ran] at later
      rw [show (Except.error stop : Run Reader).toOption = none from rfl, Option.elim_none, List.append_nil]
      exact intact.tokens.raise later
    | ok next =>
      rw [ran] at later
      exact intact.tokens.append (Reader.run_paired intact.table.distinct rooted.inScope rfl rfl ran) (Nat.zero_le _) later

end Intact

end Session

namespace Expander

variable {scopes : List Scope} {held tokens more : List Token} {e : Expander} {p : Pass} {t : Token} {name : String}
  {limit : Int}

-- Held are the tokens of the session so far, those of this expansion among them.
structure Tended (scopes : List Scope) (held : List Token) (e : Expander) : Prop where
  session : Session.Intact ⟨e.symbols, e.nextId, scopes, held⟩
  stored : e.program ++ e.macros.held ⊆ held

theorem Tended.program (tended : Tended scopes held e) : e.program ⊆ held :=
  fun _ member => tended.stored (List.mem_append_left _ member)

structure PassTended (scopes : List Scope) (held : List Token) (p : Pass) : Prop where
  expander : Tended scopes held p.expander
  output : p.output.toList ⊆ held

section Growing

variable {σ : Type} {tended : List Token → σ → Prop} {s : σ}

-- The state is in order when some more tokens are held.
def Later (tended : List Token → σ → Prop) (held : List Token) (s : σ) : Prop := ∃ more, held ⊆ more ∧ tended more s

abbrev Upholds (tended : List Token → σ → Prop) (held : List Token) (x : Run σ) : Prop :=
  Leaves (Later tended held) (Later tended held) x

theorem later_of (now : tended held s) : Later tended held s := ⟨held, fun _ member => member, now⟩

theorem Later.mono (later : Later tended more s) (grown : held ⊆ more) : Later tended held s := by
  obtain ⟨most, wider, reached⟩ := later
  exact ⟨most, fun _ member => wider (grown member), reached⟩

end Growing

theorem PassTended.keep (tended : PassTended scopes held p) (here : t ∈ held) : PassTended scopes held (p.keep t) := by
  refine ⟨tended.expander, ?_⟩
  intro u member
  have cases : u ∈ p.output.toList ∨ u = t := by simpa [Pass.keep] using member
  rcases cases with old | rfl
  · exact tended.output old
  · exact here

theorem read_tended (settings : Settings) (source : List Char) (file : String) (tended : Tended scopes held e) :
    Upholds (Tended scopes) held (e.read settings source file) := by
  have intact := tended.session.read (.fresh _) file source settings.commentWarnings e.journal
  change Session.Intact (Session.afterReading _ (e.reader settings source file).run) at intact
  rw [read_eq]
  cases ran : (e.reader settings source file).run with
  | ok r =>
    rw [ran] at intact
    refine ⟨held ++ r.tokens.toList, List.subset_append_left _ _, ⟨intact.table, ?_, intact.tokens⟩, ?_⟩
    · exact fun scope member => intact.scopes scope (List.mem_cons_of_mem _ member)
    · intro t member
      rcases List.mem_append.mp member with new | body
      · exact List.mem_append_right _ new
      · exact List.mem_append_left _ (tended.stored (List.mem_append_right _ body))
  | error stop =>
    rw [ran] at intact
    refine later_of ⟨⟨intact.table, ?_, intact.tokens.subset (List.subset_append_left _ _)⟩, tended.stored⟩
    exact fun scope member => intact.scopes scope (List.mem_cons_of_mem _ member)

theorem captured_intact {span : BodySpan} (t : Token) (name : String)
    (intact : Session.Intact ⟨e.symbols, e.nextId, scopes, held⟩) (given : tokens ⊆ held) (found : bodySpan tokens = .ok span) :
    Session.Intact ⟨(captured e t name span).symbols, e.nextId, scopes, held⟩ := by
  have table : (captured e t name span).symbols = span.closer.kind.label?.elim e.symbols e.symbols.erase := by
    unfold captured note
    cases span.closer.kind.label? <;> rfl
  rw [table]
  cases labelled : span.closer.kind.label? with
  | none => exact intact
  | some label => exact intact.erase (bodySpan_blank intact.tokens given found labelled)

theorem capture_tended {span : BodySpan} (tended : PassTended scopes held p) (here : t ∈ held)
    (kind : t.kind = .macroDefinition name false) (given : tokens ⊆ held) (found : bodySpan tokens = .ok span) :
    Upholds (PassTended scopes) held (capture p t name span) := by
  have parts := bodySpan_parts found
  have intact := captured_intact t name tended.expander.session given found
  unfold capture
  dsimp only
  split
  · exact later_of ⟨⟨intact, tended.expander.stored⟩, tended.output⟩
  · rename_i macros defined
    have kept : held ⊆ { t with kind := TokenKind.macroDefinition name true } :: held := List.subset_cons_self _ _
    have marked : Session.Intact
        ⟨(captured p.expander t name span).symbols, p.expander.nextId, scopes,
          { t with kind := TokenKind.macroDefinition name true } :: held⟩ := by
      apply intact.tokens_given
      intro u member
      rcases List.mem_cons.mp member with rfl | old
      · exact .captured here kind
      · exact .held old
    refine ⟨_, kept, ⟨marked, ?_⟩, ?_⟩
    · intro u member
      apply kept
      rcases List.mem_append.mp member with program | body
      · exact tended.expander.program program
      · rcases List.mem_append.mp (MacroTable.define_held defined body) with old | new
        · exact tended.expander.stored (List.mem_append_right _ old)
        · have inside := List.mem_of_mem_filter new
          exact given (by simp [parts, inside])
    · intro u member
      have cases : u ∈ p.output.toList ∨ u = { t with kind := .macroDefinition name true } ∨ u ∈ span.gap := by
        simpa [Pass.replaceBy] using member
      rcases cases with old | rfl | gap
      · exact kept (tended.output old)
      · exact List.mem_cons_self
      · exact kept (given (by simp [parts, gap]))

theorem confirm_tended (tended : PassTended scopes held p) (here : t ∈ held) :
    Upholds (PassTended scopes) held (confirm p t name) := by
  unfold confirm
  dsimp only
  split
  · exact later_of tended
  · rename_i macros defined
    refine later_of (PassTended.keep ⟨⟨tended.expander.session, ?_⟩, tended.output⟩ here)
    intro u member
    rcases List.mem_append.mp member with program | body
    · exact tended.expander.program program
    · apply tended.expander.stored
      rcases List.mem_append.mp (MacroTable.define_held defined body) with old | brought
      · exact List.mem_append_right _ old
      · exact List.mem_append_right _ (MacroTable.broughtBy_held _ _ brought)

-- New labels are copies of labels with a blank.
structure Relabelled (scopes : List Scope) (held : List Token) (c : Copying) : Prop where
  expander : Tended scopes held c.expander
  blank : ∀ entry ∈ c.renamed, ¬ Plain entry.2

theorem renameCloser_tended {c : Copying} (relabelled : Relabelled scopes held c) (here : t ∈ held) :
    Leaves (Relabelled scopes held) (Relabelled scopes held) (renameCloser c t) := by
  unfold renameCloser
  split
  · rename_i label kind
    have blank := relabelled.expander.session.tokens.blank label (mem_closerLabels.mpr ⟨t, here, kind⟩)
    dsimp only
    generalize freeNumber c.expander.symbols label c.expander.symbols.size (c.expander.copies + 1) = n
    have copied : ¬ Plain s!"{label}#{n}" := copy_not_plain blank
    split
    · rename_i symbols defined
      have closed := relabelled.expander.session.table.define defined (by simpa using copied)
        fun plain => absurd plain copied
      have intact := relabelled.expander.session.table_changed closed fun name member _ => by
        rw [SymbolTable.names_define defined]
        exact List.mem_append_left _ member
      refine ⟨⟨intact, relabelled.expander.stored⟩, ?_⟩
      intro entry member
      rcases List.mem_cons.mp member with rfl | earlier
      · exact copied
      · exact relabelled.blank entry earlier
    · exact ⟨⟨relabelled.expander.session, relabelled.expander.stored⟩, relabelled.blank⟩
  · exact relabelled

theorem Relabelled.label {c : Copying} (relabelled : Relabelled scopes held c) {label : String} (blank : ¬ Plain label) :
    ¬ Plain (c.label label) := by
  unfold Copying.label
  cases found : c.renamed.lookup label with
  | none => exact blank
  | some fresh =>
    obtain ⟨front, back, parts, _⟩ := List.lookup_eq_some_iff.mp found
    exact relabelled.blank (label, fresh) (by simp [parts])

theorem expandMacro_tended {m : Macro} (tended : PassTended scopes held p) (known : m ∈ p.expander.macros.entries) :
    Upholds (PassTended scopes) held (expandMacro m t p) := by
  have body : m.body ⊆ held := fun u member =>
    tended.expander.stored (List.mem_append_right _ (List.mem_append_left _ (List.mem_flatMap.mpr ⟨m, known, member⟩)))
  have copying : Leaves (Relabelled scopes held) (Relabelled scopes held) (Run.each renameCloser ⟨p.expander, []⟩ m.body) :=
    leaves_each ⟨tended.expander, by simp⟩ fun c u member relabelled => renameCloser_tended relabelled (body member)
  unfold expandMacro
  split
  · rename_i stop ran
    exact later_of ⟨(copying.error ran).expander, tended.output⟩
  · rename_i c ran
    have relabelled := copying.ok ran
    have intact := relabelled.expander.session
    have copy : Paired c.expander.nextId (c.expander.nextId + m.body.length)
        (copyBody c.expander.nextId m.body c.label) :=
      copyBody_paired intact.tokens body fun _ => relabelled.label
    have grown : held ⊆ held ++ copyBody c.expander.nextId m.body c.label := List.subset_append_left _ _
    refine ⟨_, grown, ⟨⟨intact.table, intact.scopes, ?_⟩, ?_⟩, ?_⟩
    · exact intact.tokens.append copy (Nat.zero_le _) (Nat.le_add_right _ _)
    · exact fun u member => grown (relabelled.expander.stored member)
    · intro u member
      have cases : u ∈ p.output.toList ∨ u ∈ copyBody c.expander.nextId m.body c.label := by
        simpa [Pass.replaceBy, copyBody] using member
      rcases cases with old | new
      · exact grown (tended.output old)
      · exact List.mem_append_right _ new

theorem mem_of_invoked? {macros : MacroTable} {m : Macro} (found : invoked? macros t = some m) : m ∈ macros.entries := by
  unfold invoked? at found
  split at found
  · split at found
    · obtain ⟨label, _, entry⟩ := Option.bind_eq_some_iff.mp found
      exact List.mem_of_find?_eq_some entry
    · cases found
  · cases found

theorem unwrapToken_tended (tended : PassTended scopes held p) (here : t ∈ held) :
    Upholds (PassTended scopes) held (unwrapToken limit p t) := by
  unfold unwrapToken
  split
  · exact later_of (tended.keep here)
  · rename_i m found
    split
    · exact later_of tended
    · exact expandMacro_tended tended (mem_of_invoked? found)

theorem PassTended.result (tended : PassTended scopes held p) : Tended scopes held p.result := by
  refine ⟨tended.expander.session, ?_⟩
  intro u member
  rcases List.mem_append.mp member with output | body
  · exact tended.output output
  · exact tended.expander.stored (List.mem_append_right _ body)

-- An included file goes on with what the outer text has, and hands over what it shares with it.
theorem Tended.aside {after : Expander} (tended : Tended scopes held e) (symbols : after.symbols = e.symbols)
    (serial : after.nextId = e.nextId) (macros : after.macros = e.macros) (program : after.program ⊆ held) :
    Tended scopes held after := by
  refine ⟨by rw [symbols, serial]; exact tended.session, ?_⟩
  intro u member
  rcases List.mem_append.mp member with here | body
  · exact program here
  · exact tended.stored (List.mem_append_right _ (macros ▸ body))

theorem PassTended.splice {inner : Expander} (outer : p.output.toList ⊆ held) (program : p.expander.program ⊆ held)
    (tended : Tended scopes held inner) :
    PassTended scopes held (p.replaceBy ((p.expander.absorb inner).addStats inner.stats) inner.program) := by
  refine ⟨tended.aside rfl rfl rfl program, ?_⟩
  intro u member
  have cases : u ∈ p.output.toList ∨ u ∈ inner.program := by simpa [Pass.replaceBy] using member
  rcases cases with old | new
  · exact outer old
  · exact tended.program new

end Expander

-- A waiting pass has the program that it goes through, what it has written, and what it has still ahead.
def Pending.tokens (pending : Pending) : List Token :=
  pending.pass.expander.program ++ (pending.pass.output.toList ++ pending.rest)

def Moment.Tended (scopes : List Scope) (held : List Token) : Moment → Prop
  | .reading _ e _ _ => e.Tended scopes held
  | .settling _ _ e => e.Tended scopes held
  | .rewriting _ _ p ahead => Expander.PassTended scopes held p ∧ ahead ⊆ held
  | .unwrapping _ _ _ p ahead => Expander.PassTended scopes held p ∧ ahead ⊆ held
  | .ended x => x.state.Tended scopes held

namespace Scene

open Expander Moment

variable {scopes : List Scope} {held : List Token} {ctx : Context} {m m' : Scene}

structure Tended (scopes : List Scope) (held : List Token) (m : Scene) : Prop where
  text : m.moment.Tended scopes held
  waiting : ∀ pending ∈ m.waiting, pending.tokens ⊆ held

theorem later_onward {waiting : List Pending} {x : Run Pass} {go : Pass → Moment}
    (around : ∀ pending ∈ waiting, pending.tokens ⊆ held) (upholds : Upholds (PassTended scopes) held x)
    (goes : ∀ more q, held ⊆ more → PassTended scopes more q → (go q).Tended scopes more) :
    Later (Tended scopes) held ⟨waiting, onward x go⟩ := by
  refine onward_cases (motive := fun next => Later (Tended scopes) held ⟨waiting, next⟩) ?_ ?_
  · intro stop failed
    obtain ⟨more, grown, reached⟩ := upholds.error failed
    exact ⟨more, grown, reached.expander, fun pending here u member => grown (around pending here member)⟩
  · intro q ran
    obtain ⟨more, grown, reached⟩ := upholds.ok ran
    exact ⟨more, grown, goes more q grown reached, fun pending here u member => grown (around pending here member)⟩

theorem Step.tended (step : Step ctx m m') (tended : Tended scopes held m) : Later (Tended scopes) held m' := by
  obtain ⟨text, around⟩ := tended
  cases step with
  | @read waiting room e source file =>
    have reading := read_tended ctx.settings source file text
    refine lexed_cases (motive := fun next => Later (Tended scopes) held ⟨waiting, next⟩) ?_ ?_
    · intro stop failed
      obtain ⟨more, grown, reached⟩ := reading.error failed
      exact ⟨more, grown, reached, fun pending here u member => grown (around pending here member)⟩
    · intro lexed ran
      obtain ⟨more, grown, reached⟩ := reading.ok ran
      exact ⟨more, grown, reached, fun pending here u member => grown (around pending here member)⟩
  | exhausted => exact later_of ⟨text, around⟩
  | begun =>
    exact later_of ⟨⟨⟨text.aside rfl rfl rfl text.program, List.nil_subset _⟩, text.program⟩, around⟩
  | kept =>
    obtain ⟨pass, ahead⟩ := text
    rw [List.cons_subset] at ahead
    exact later_of ⟨⟨pass.keep ahead.1, ahead.2⟩, around⟩
  | confirmed =>
    obtain ⟨pass, ahead⟩ := text
    rw [List.cons_subset] at ahead
    exact later_onward around (confirm_tended pass ahead.1) fun more q grown reached =>
      ⟨reached, fun u member => grown (ahead.2 member)⟩
  | bodiless => exact later_of ⟨text.1.expander, around⟩
  | unpaired => exact later_of ⟨text.1.expander, around⟩
  | captured kind found =>
    obtain ⟨pass, ahead⟩ := text
    rw [List.cons_subset] at ahead
    exact later_onward around (capture_tended pass ahead.1 kind ahead.2 found) fun more q grown reached =>
      ⟨reached, fun u member => grown (ahead.2 (by simp [bodySpan_parts found, member]))⟩
  | barred => exact later_of ⟨text.1.expander, around⟩
  | opened =>
    obtain ⟨pass, ahead⟩ := text
    rw [List.cons_subset] at ahead
    refine later_of ⟨pass.expander.aside rfl rfl rfl (List.nil_subset _), List.forall_mem_cons.mpr ⟨?_, around⟩⟩
    rw [Pending.tokens, List.append_subset, List.append_subset]
    exact ⟨pass.expander.program, pass.output, ahead.2⟩
  | turned => exact later_of ⟨⟨⟨text.1.result, List.nil_subset _⟩, text.1.output⟩, around⟩
  | unwrapped =>
    obtain ⟨pass, ahead⟩ := text
    rw [List.cons_subset] at ahead
    exact later_onward around (unwrapToken_tended pass ahead.1) fun more q grown reached =>
      ⟨reached, fun u member => grown (ahead.2 member)⟩
  | again => exact later_of ⟨text.1.result, around⟩
  | stable => exact later_of ⟨text.1.result.aside rfl rfl rfl text.1.output, around⟩
  | closed =>
    obtain ⟨outer, around⟩ := List.forall_mem_cons.mp around
    rw [Pending.tokens, List.append_subset, List.append_subset] at outer
    exact later_of ⟨⟨.splice outer.2.1 outer.1 text, outer.2.2⟩, around⟩
  | unwound =>
    obtain ⟨outer, around⟩ := List.forall_mem_cons.mp around
    rw [Pending.tokens, List.append_subset, List.append_subset] at outer
    exact later_of ⟨text.aside rfl rfl rfl outer.1, around⟩

end Scene

namespace Session

variable {s : Session}

theorem Intact.expand {e : Expander} (intact : s.Intact) (offers : s.Offers e) (ctx : Context) :
    Intact (s.afterExpansion (Expander.process ctx e)) := by
  have start : Expander.Tended s.scopes (s.tokens ++ (e.program ++ e.macros.held)) e := by
    refine ⟨?_, List.subset_append_right _ _⟩
    rw [offers.symbols, offers.nextId]
    apply intact.tokens_given
    intro t member
    rcases List.mem_append.mp member with old | new
    · exact .held old
    · exact offers.tokens t new
  have kept (m m' : Scene) (step : Scene.Step ctx m m')
      (later : Expander.Later (Scene.Tended s.scopes) (s.tokens ++ (e.program ++ e.macros.held)) m) :
      Expander.Later (Scene.Tended s.scopes) (s.tokens ++ (e.program ++ e.macros.held)) m' := by
    obtain ⟨more, grown, tended⟩ := later
    exact (step.tended tended).mono grown
  have last := Scene.run_keeps kept ⟨[], .settling (Expander.room ctx e) ctx.settings.maxPasses.toNat e⟩
    (Expander.later_of ⟨start, by simp⟩)
  rw [Scene.run_process] at last
  obtain ⟨more, grown, tended, _⟩ := last
  refine ⟨tended.session.table, tended.session.scopes, tended.session.tokens.subset ?_⟩
  intro t member
  rcases List.mem_append.mp member with old | new
  · exact grown (List.mem_append_left _ old)
  · refine tended.stored ?_
    rcases List.mem_append.mp new with program | body
    · exact List.mem_append_left _ program
    · exact List.mem_append_right _ (List.mem_append_left _ body)

theorem Reached.intact (reached : Reached s) : s.Intact := by
  induction reached with
  | start => exact .start
  | @read s scope _ shared file source checkComments journal ih =>
    have rooted : scope.Rooted s.symbols := by
      rcases shared with rfl | old
      · exact .fresh _
      · exact ih.scopes scope old
    exact ih.read rooted file source checkComments journal
  | expand _ offers ctx ih => exact ih.expand offers ctx

-- Whatever was read and expanded, and wherever it stopped, scopes are open under declared names only, and no declared
-- name with a slash lacks the part before the slash.
theorem names_closed_under_parents (reached : Reached s) :
    (∀ scope ∈ s.scopes, ∀ name location, scope.parent = some (name, location) →
      s.symbols.Named name ∧ '/' ∉ name.toList) ∧
    ∀ label, s.symbols.Named label → ∀ parent, parentOf label = some parent → s.symbols.Named parent := by
  have intact := reached.intact
  refine ⟨?_, ?_⟩
  · intro scope member name location found
    obtain ⟨known, plain, top⟩ := intact.scopes scope member name location found
    exact ⟨intact.table.named_iff.mpr ⟨known, plain⟩, by simpa [parentOf] using top⟩
  · intro label named parent found
    obtain ⟨known, plain⟩ := intact.table.named_iff.mp named
    exact intact.table.named_iff.mpr ⟨intact.table.parents label known plain parent found, plain_parentOf plain found⟩

-- The second text is read in the scope that the first one has left and stops at its last label, which is declared
-- already; then the macro of the first text is captured and its label goes.
theorem names_closed_under_parents_shared :
    let first : Session := Session.afterReading {}
      (Session.reader {} "f" "@p/c &d %m \x7b 00 \x7d".toList false {} []).run
    let second := first.afterReading (first.reader "g" "&e @q/x @p".toList false ⟨some ("p", ⟨"f", 1, 1⟩)⟩ []).run
    let last := second.afterExpansion (Expander.process ⟨{}, ⟨[], []⟩⟩
      { symbols := second.symbols, nextId := second.nextId, program := second.tokens })
    second.symbols.names = ["p", "p/c", "p/d", "<lambda f:1:17>", "p/e", "q", "q/x"] ∧
    last.symbols.names = ["p", "p/c", "p/d", "p/e", "q", "q/x"] ∧
    last.scopes = [⟨some ("p", ⟨"g", 1, 9⟩)⟩, ⟨some ("p", ⟨"f", 1, 1⟩)⟩] ∧
    last.symbols.Named "p" ∧ last.symbols.Named "q" := by
  intro first second last
  have scopes : last.scopes = [⟨some ("p", ⟨"g", 1, 9⟩)⟩, ⟨some ("p", ⟨"f", 1, 1⟩)⟩] := by decide +kernel
  have reached : Reached last := by
    have earlier : Reached first := .read .start (.inl rfl) _ _ _ _
    have stopped : Reached second := .read earlier (.inr (by decide +kernel)) _ _ _ _
    refine .expand stopped ⟨rfl, rfl, ?_⟩ _
    intro t member
    exact .held (by simpa [MacroTable.held, MacroTable.bodies] using member)
  obtain ⟨opened, parents⟩ := names_closed_under_parents reached
  have label : last.symbols.Named "q/x" := ⟨⟨"q/x", ⟨"g", 1, 4⟩, none, false⟩, by decide +kernel, rfl⟩
  exact ⟨by decide +kernel, by decide +kernel, scopes,
    (opened _ (by rw [scopes]; exact List.mem_cons_self) "p" _ rfl).1, parents "q/x" label "q" (by decide +kernel)⟩

end Session

end RuneAsm
