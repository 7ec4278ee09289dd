import Mathlib
import RuneAsm.Proofs.Moments
import RuneAsm.Proofs.Scanning

-- Every text that is expanded, the first one and each file at each place where it is included, replaces at most as many
-- invocations as the settings allow. The counters of an included file are added only when it is done, so the whole
-- expansion is bounded by that number for each text and by no smaller one.

namespace RuneAsm

open Run

def Event.isExpansion : Event → Bool
  | .expanded _ _ => true
  | _ => false

def Event.isInclusion : Event → Bool
  | .including _ _ => true
  | _ => false

-- The invocations that were replaced, in whatever text.
def Journal.expansions (journal : Journal) : Nat := journal.countP Event.isExpansion

-- The invocations that were replaced in each of the texts that are open, innermost first, and in those that are done.
structure Tally where
  opened : List Nat
  done : List Nat
deriving DecidableEq, Repr

namespace Tally

def texts (t : Tally) : List Nat := t.opened ++ t.done

-- An included file is a text of its own from where it is opened to where it is stable.
def count (t : Tally) : Event → Tally
  | .expanded _ _ => { t with opened := t.opened.modifyHead (· + 1) }
  | .including _ _ => { t with opened := 0 :: t.opened }
  | .stable _ _ => ⟨t.opened.tail, t.opened.take 1 ++ t.done⟩
  | _ => t

theorem texts_stable (t : Tally) (passes rewrites : Nat) : (t.count (.stable passes rewrites)).texts.Perm t.texts := by
  obtain ⟨opened, done⟩ := t
  cases opened with
  | nil => exact .refl _
  | cons n outer => exact List.perm_middle

end Tally

def Event.isTallied : Event → Bool
  | .expanded _ _ | .including _ _ | .stable _ _ => true
  | _ => false

namespace Journal

variable {notes journal : Journal} {event : Event}

-- The first text is open from the start.
def tally : Journal → Tally
  | [] => ⟨[0], []⟩
  | event :: earlier => (tally earlier).count event

theorem quiet_of_untallied (untallied : event.isTallied = false) (t : Tally) :
    t.count event = t ∧ event.isExpansion = false := by
  cases event <;> first | exact ⟨rfl, rfl⟩ | cases untallied

theorem tally_quiet (quiet : ∀ note ∈ notes, note.isTallied = false) : tally (notes ++ journal) = tally journal := by
  induction notes with
  | nil => rfl
  | cons note rest ih =>
    have later := ih fun other member => quiet other (List.mem_cons_of_mem _ member)
    rw [List.cons_append, tally, later]
    exact (quiet_of_untallied (quiet note List.mem_cons_self) _).1

theorem expansions_quiet (quiet : ∀ note ∈ notes, note.isTallied = false) :
    expansions (notes ++ journal) = expansions journal := by
  have none : notes.countP Event.isExpansion = 0 :=
    List.countP_eq_zero.mpr fun note member => by simp [quiet_of_untallied (quiet note member) ⟨[], []⟩]
  simp [expansions, none]

end Journal

-- No text has replaced more invocations than it may, and together they have replaced all that were.
structure Tallied (limit : Int) (journal : Journal) : Prop where
  each : ∀ n ∈ journal.tally.texts, n ≤ limit.toNat
  total : journal.tally.texts.sum = journal.expansions

namespace Tallied

variable {limit : Int} {journal notes : Journal} {n : Nat} {outer : List Nat}

theorem quiet (tallied : Tallied limit journal) (others : ∀ note ∈ notes, note.isTallied = false) :
    Tallied limit (notes ++ journal) := by
  refine ⟨?_, ?_⟩
  · rw [Journal.tally_quiet others]
    exact tallied.each
  · rw [Journal.tally_quiet others, Journal.expansions_quiet others]
    exact tallied.total

theorem stable (tallied : Tallied limit journal) (passes rewrites : Nat) :
    Tallied limit (.stable passes rewrites :: journal) := by
  have same : (Journal.tally (.stable passes rewrites :: journal)).texts.Perm journal.tally.texts :=
    journal.tally.texts_stable passes rewrites
  refine ⟨fun n member => tallied.each n (same.mem_iff.mp member), same.sum_eq.trans ?_⟩
  simpa [Journal.expansions, Event.isExpansion] using tallied.total

-- A file starts from nothing, so it may replace as many as any other, whatever was replaced before it.
theorem including (tallied : Tallied limit journal) (file : String) (location : Location) :
    Tallied limit (.including file location :: journal) := by
  refine ⟨?_, ?_⟩
  · intro n member
    rcases List.mem_cons.mp member with rfl | other
    · exact Nat.zero_le _
    · exact tallied.each n other
  · have total := tallied.total
    simpa [Journal.tally, Tally.count, Tally.texts, Journal.expansions, Event.isExpansion] using total

theorem expanded (tallied : Tallied limit journal) (opened : journal.tally.opened = n :: outer)
    (below : (n : Int) < limit) (name : String) (location : Location) :
    Tallied limit (.expanded name location :: journal) := by
  obtain ⟨each, total⟩ := tallied
  unfold Tally.texts at each total
  rw [opened] at each total
  have texts : (Journal.tally (.expanded name location :: journal)).texts = (n + 1) :: (outer ++ journal.tally.done) := by
    simp [Journal.tally, Tally.count, Tally.texts, opened]
  refine ⟨?_, ?_⟩
  · rw [texts]
    intro m member
    rcases List.mem_cons.mp member with rfl | other
    · omega
    · exact each m (List.mem_cons_of_mem _ other)
  · have counted : Journal.expansions (.expanded name location :: journal) = journal.expansions + 1 := by
      simp [Journal.expansions, List.countP_cons, Event.isExpansion]
    rw [texts, counted, ← total, List.cons_append, List.sum_cons, List.sum_cons]
    omega

end Tallied

namespace Expander

variable {e : Expander} {p : Pass} {t : Token} {name : String} {limit : Int}

-- What was noted besides is of another kind, and no invocation was counted.
def Notes (e next : Expander) : Prop :=
  next.stats.expansions = e.stats.expansions ∧
    ∃ notes, next.journal = notes ++ e.journal ∧ ∀ note ∈ notes, note.isTallied = false

theorem Notes.refl (e : Expander) : Notes e e := ⟨rfl, [], rfl, by simp⟩

theorem Notes.trans {mid next : Expander} (early : Notes e mid) (late : Notes mid next) : Notes e next := by
  obtain ⟨counted, notes, journal, others⟩ := early
  obtain ⟨counted', notes', journal', others'⟩ := late
  refine ⟨counted'.trans counted, notes' ++ notes, by rw [journal', journal, List.append_assoc], ?_⟩
  intro note member
  exact (List.mem_append.mp member).elim (others' note) (others note)

theorem read_notes (settings : Settings) (source : List Char) (file : String) (e : Expander) :
    Leaves (Notes e) (Notes e) (e.read settings source file) := by
  have quiet {lexemes : List Lexeme} {r : Reader} (scans : (e.reader settings source file).Scans lexemes r)
      (program : List Token) : Notes e { e.absorbReader r with program } := by
    obtain ⟨notes, journal, lexical⟩ := scans.notes
    refine ⟨rfl, notes, journal, ?_⟩
    intro note member
    have kind := lexical note member
    cases note <;> first | rfl | cases kind
  have scans := Reader.run_scans (e.reader settings source file)
  rw [read_eq]
  cases ran : (e.reader settings source file).run with
  | ok r => exact quiet (scans.ok ran) _
  | error stop =>
    obtain ⟨front, _, _, partly⟩ := scans.error ran
    exact quiet partly _

theorem capture_notes (span : BodySpan) :
    Leaves (fun q => Notes p.expander q.expander) (fun q => Notes p.expander q.expander) (capture p t name span) := by
  unfold capture
  dsimp only
  split
  · exact .refl _
  · exact ⟨rfl, [_], rfl, by simp [Event.isTallied]⟩

theorem confirm_notes :
    Leaves (fun q => Notes p.expander q.expander) (fun q => Notes p.expander q.expander) (confirm p t name) := by
  unfold confirm
  dsimp only
  split
  · exact .refl _
  · exact .refl _

theorem renameClosers_notes (body : List Token) (c : Copying) :
    Leaves (fun d => Notes c.expander d.expander) (fun d => Notes c.expander d.expander) (Run.each renameCloser c body) := by
  refine leaves_each (.refl _) ?_
  intro d t _ earlier
  have step : Leaves (fun next => Notes d.expander next.expander) (fun next => Notes d.expander next.expander)
      (renameCloser d t) := by
    unfold renameCloser
    split
    · dsimp only
      split
      · exact ⟨rfl, [_], rfl, by simp [Event.isTallied]⟩
      · exact .refl _
    · exact .refl _
  exact step.mono (fun _ later => earlier.trans later) (fun _ later => earlier.trans later)

end Expander

namespace Scene

open Moment Expander

variable {ctx : Context} {limit : Int} {waiting : List Pending} {inner : List Nat} {m m' : Scene} {e next : Expander}

-- The texts that are open are counted level by level, innermost first; no count is above the counter of its level.
structure Counted (limit : Int) (waiting : List Pending) (inner : List Nat) (journal : Journal) : Prop where
  tallied : Tallied limit journal
  levels : ∃ outer, journal.tally.opened = inner ++ outer ∧
    List.Forall₂ (fun n (pending : Pending) => n ≤ pending.pass.expander.stats.expansions) outer waiting

def CountedAt (limit : Int) (waiting : List Pending) (e : Expander) : Prop :=
  ∃ n, n ≤ e.stats.expansions ∧ Counted limit waiting [n] e.journal

-- A text that is done is counted among those that are; one that has stopped is left open.
def Counts (limit : Int) (waiting : List Pending) : Moment → Prop
  | .reading _ e _ _ => CountedAt limit waiting e
  | .settling _ _ e => CountedAt limit waiting e
  | .rewriting _ _ p _ => CountedAt limit waiting p.expander
  | .unwrapping _ _ _ p _ => CountedAt limit waiting p.expander
  | .ended (.ok e) => Counted limit waiting [] e.journal
  | .ended (.error stop) => ∃ inner, Counted limit waiting inner stop.state.journal

theorem CountedAt.notes (counted : CountedAt limit waiting e) (notes : Notes e next) : CountedAt limit waiting next := by
  obtain ⟨n, within, tallied, outer, opened, levels⟩ := counted
  obtain ⟨same, notes, journal, others⟩ := notes
  refine ⟨n, same.symm ▸ within, ?_, outer, ?_, levels⟩
  · rw [journal]
    exact tallied.quiet others
  · rw [journal, Journal.tally_quiet others]
    exact opened

theorem CountedAt.failed (counted : CountedAt limit waiting e) (f : Failure) :
    Counts limit waiting (.ended (.fail e f)) := by
  obtain ⟨n, _, counted⟩ := counted
  exact ⟨[n], counted⟩

theorem expandMacro_counts {p : Pass} (used : Macro) (t : Token) (counted : CountedAt limit waiting p.expander)
    (below : (p.expander.stats.expansions : Int) < limit) :
    Leaves (fun q => CountedAt limit waiting q.expander) (fun q => CountedAt limit waiting q.expander)
      (expandMacro used t p) := by
  have copying := renameClosers_notes used.body ⟨p.expander, []⟩
  unfold expandMacro
  split
  · rename_i stop ran
    exact counted.notes (copying.error ran)
  · rename_i c ran
    have notes := copying.ok ran
    obtain ⟨n, within, tallied, outer, opened, levels⟩ := counted.notes notes
    have room : (n : Int) < limit := by
      rw [notes.1] at within
      exact Int.lt_of_le_of_lt (by exact_mod_cast within) below
    refine ⟨n + 1, ?_, tallied.expanded opened room _ _, outer, ?_, levels⟩
    · exact Nat.succ_le_succ within
    · simp [Pass.replaceBy, note, Journal.tally, Tally.count, opened]

theorem unwrapToken_counts {p : Pass} (t : Token) (counted : CountedAt limit waiting p.expander) :
    Leaves (fun q => CountedAt limit waiting q.expander) (fun q => CountedAt limit waiting q.expander)
      (unwrapToken limit p t) := by
  unfold unwrapToken
  split
  · exact counted
  · split
    · exact counted
    · rename_i below
      exact expandMacro_counts _ t counted (by omega)

theorem Step.counts (step : Step ctx m m') (counts : Counts ctx.settings.maxExpansions m.waiting m.moment) :
    Counts ctx.settings.maxExpansions m'.waiting m'.moment := by
  have onward {waiting : List Pending} {x : Run Pass} {go : Pass → Moment}
      (leaves : Leaves (fun q => CountedAt ctx.settings.maxExpansions waiting q.expander)
        (fun q => CountedAt ctx.settings.maxExpansions waiting q.expander) x)
      (goes : ∀ q, CountedAt ctx.settings.maxExpansions waiting q.expander →
        Counts ctx.settings.maxExpansions waiting (go q)) :
      Counts ctx.settings.maxExpansions waiting (onward x go) :=
    onward_cases (fun stop failed => (leaves.error failed).failed stop.failure) fun q ran => goes q (leaves.ok ran)
  cases step with
  | @read waiting room e source file =>
    have notes := read_notes ctx.settings source file e
    refine lexed_cases (fun stop failed => ?_) fun lexed ran => ?_
    · exact CountedAt.failed (CountedAt.notes counts (notes.error failed)) stop.failure
    · exact CountedAt.notes counts (notes.ok ran)
  | exhausted => exact CountedAt.failed counts _
  | begun => exact counts
  | kept => exact counts
  | confirmed =>
    refine onward (confirm_notes.mono ?_ ?_) fun q counted => counted
    · exact fun q notes => CountedAt.notes counts notes
    · exact fun q notes => CountedAt.notes counts notes
  | bodiless => exact CountedAt.failed counts _
  | unpaired => exact CountedAt.failed counts _
  | captured =>
    refine onward ((capture_notes _).mono ?_ ?_) fun q counted => counted
    · exact fun q notes => CountedAt.notes counts notes
    · exact fun q notes => CountedAt.notes counts notes
  | barred => exact CountedAt.failed counts _
  | opened =>
    obtain ⟨n, within, tallied, outer, opened, levels⟩ := counts
    exact ⟨0, Nat.zero_le _, tallied.including _ _, n :: outer, by
      simp [nested, note, Journal.tally, Tally.count, opened], .cons within levels⟩
  | turned => exact counts
  | unwrapped => exact onward (unwrapToken_counts _ counts) fun q counted => counted
  | again => exact counts
  | stable =>
    obtain ⟨n, within, tallied, outer, opened, levels⟩ := counts
    exact ⟨tallied.stable _ _, outer, by simp [note, Journal.tally, Tally.count, Pass.result, opened], levels⟩
  | closed =>
    obtain ⟨tallied, outer, opened, levels⟩ := counts
    cases levels with
    | cons within levels => exact ⟨_, Nat.le_trans within (Nat.le_add_right _ _), tallied, _, opened, levels⟩
  | unwound =>
    obtain ⟨inner, tallied, outer, opened, levels⟩ := counts
    cases levels with
    | cons within levels => exact ⟨inner ++ [_], tallied, _, by rw [List.append_assoc]; exact opened, levels⟩

end Scene

namespace Expander

end Expander

end RuneAsm
