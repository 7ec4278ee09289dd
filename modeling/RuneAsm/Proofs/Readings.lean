import Mathlib
import RuneAsm.Proofs.Declarations
import RuneAsm.Proofs.Following
import RuneAsm.Proofs.Moments
import RuneAsm.Proofs.Scanning

namespace RuneAsm

open Run Expander

-- The texts that a run reads, one after the other. A file is read in the middle of the text that includes it, so what
-- is around it at that time belongs to the record.

-- A text, and the file name that the places in it have.
structure SourceText where
  file : String
  chars : List Char
deriving DecidableEq, Repr

-- A text that was read, the tokens that were there already, and its own.
structure Reading where
  source : SourceText
  held : List Token
  text : List Token

def Pending.program (pending : Pending) : List Token := pending.pass.output.toList ++ pending.token :: pending.rest

-- The programs of the texts that wait, outermost first.
def waitingTokens : List Pending → List Token
  | [] => []
  | pending :: waiting => waitingTokens waiting ++ pending.program

namespace Scene

variable {ctx : Context} {start m : Scene} {readings : List Reading}

-- The tokens that are there are those of the texts that wait and of the bodies of macros.
def reading? (ctx : Context) : Scene → Option Reading
  | ⟨waiting, .reading _ e source file⟩ => (e.read ctx.settings source file).toOption.map fun lexed =>
    ⟨⟨file, source⟩, waitingTokens waiting ++ e.macros.bodies, lexed.program⟩
  | _ => none

-- The steps up to a scene, with what was read in them.
inductive Course (ctx : Context) (start : Scene) : List Reading → Scene → Prop where
  | start : Course ctx start [] start
  | step {readings : List Reading} {m m' : Scene} (course : Course ctx start readings m) (step : Step ctx m m') :
      Course ctx start (readings ++ (m.reading? ctx).toList) m'

theorem Leads.course (leads : Leads ctx start m) : ∃ readings, Course ctx start readings m := by
  induction leads with
  | refl => exact ⟨[], .start⟩
  | tail _ step ih =>
    obtain ⟨readings, course⟩ := ih
    exact ⟨_, course.step step⟩

end Scene

-- The tokens of a text, as some reading of it gives them.
def Reads (ctx : Context) (s : SourceText) (text : List Token) : Prop :=
  ∃ start lexed, Expander.read ctx.settings s.chars s.file start = .ok lexed ∧ text = lexed.program

def OnDisk (ctx : Context) (s : SourceText) : Prop := ∃ path, ctx.disk.readText path = .ok s.chars ∧ s.file = path.text

theorem Scene.Course.reads {ctx : Context} {start m : Scene} {readings : List Reading}
    (course : Course ctx start readings m) : ∀ r ∈ readings, Reads ctx r.source r.text := by
  induction course with
  | start => simp
  | @step readings m m' _ step ih =>
    intro r member
    rcases List.mem_append.mp member with early | late
    · exact ih r early
    · obtain ⟨waiting, moment⟩ := m
      cases moment with
      | reading room e source file =>
        obtain ⟨lexed, read, rfl⟩ := Option.map_eq_some_iff.mp (Option.mem_toList.mp late)
        exact ⟨e, lexed, eq_ok_of_toOption read, rfl⟩
      | _ => cases late

-- The texts of a run that succeeds: the input comes first, and then the files in the order in which they are opened.
structure ReadInTurn (ctx : Context) (input : Input) (journal : Journal) (e : Expander) (main : Reading)
    (others : List Reading) : Prop where
  course : ∃ start, input.opening ctx journal = some start ∧ start.Course ctx (main :: others) ⟨[], .ended (.ok e)⟩
  given : input.Gives ctx main.source.chars main.source.file
  opened : e.journal.opened = journal.opened ++ others.map (·.source.file)
  stored : ∀ r ∈ others, OnDisk ctx r.source
  read : ∀ r ∈ main :: others, Reads ctx r.source r.text

theorem Journal.opened_append {notes : List Event} (lexical : ∀ note ∈ notes, note.isLexical = true)
    (journal : Journal) : Journal.opened (notes ++ journal) = journal.opened := by
  induction notes with
  | nil => rfl
  | cons note notes ih =>
    have rest := ih fun other member => lexical other (List.mem_cons_of_mem _ member)
    have first := lexical note List.mem_cons_self
    cases note <;> first | exact rest | cases first

theorem Expander.opened_read {e lexed : Expander} {settings : Settings} {source : List Char} {file : String}
    (ran : e.read settings source file = .ok lexed) : lexed.journal.opened = e.journal.opened := by
  have scanned := Reader.run_scans (e.reader settings source file)
  rw [read_eq] at ran
  cases read : (e.reader settings source file).run with
  | error stop =>
    rw [read] at ran
    cases ran
  | ok r =>
    rw [read] at ran
    cases ran
    obtain ⟨notes, noted, lexical⟩ := (scanned.ok read).notes
    change Journal.opened r.journal = _
    rw [noted]
    exact Journal.opened_append lexical _

-- What is told of the texts that were read, of the state and of the tokens of all texts under way, and what it takes to
-- be true all along: it has to reach over each action.
structure Tracking (ctx : Context) (I : List Reading → Expander → List Token → Prop) : Prop where
  start (journal : Journal) (chain : List Place) : I [] { journal, chain } []
  -- What is counted or noted does not matter.
  aside {readings : List Reading} {e after : Expander} {live : List Token} : I readings e live →
    after.symbols = e.symbols → after.macros = e.macros → after.nextId = e.nextId → I readings after live
  read {readings : List Reading} {e lexed : Expander} {live : List Token} {source : List Char} {file : String} :
    I readings e live → e.Holds live → e.read ctx.settings source file = .ok lexed →
      I (readings ++ [⟨⟨file, source⟩, live ++ e.macros.bodies, lexed.program⟩]) lexed (live ++ lexed.program)
  captured {readings : List Reading} {e : Expander} {foreign front rest : List Token} {t : Token} {name : String}
      {span : BodySpan} :
    I readings e (foreign ++ (front ++ t :: rest)) → Orderly (front ++ t :: rest) →
      t.kind = .macroDefinition name false → span.Fits rest →
      I readings (captured e t name span)
        (foreign ++ (front ++ { t with kind := .macroDefinition name true } :: (span.gap ++ span.rest)))
  copied {readings : List Reading} {e : Expander} {foreign front rest : List Token} {t : Token} {r : Reference}
      {m : Macro} {c : Copying} :
    I readings e (foreign ++ (front ++ t :: rest)) → e.Holds (foreign ++ (front ++ t :: rest)) →
      t.kind = .reference r → m ∈ e.macros.entries → Renamed e m.body c →
      I readings (c.finished m t) (foreign ++ (front ++ copyBody c.expander.nextId m.body c.label ++ rest))
  -- All that came with the file is younger than what was there before it.
  spliced {readings : List Reading} {e : Expander} {foreign front rest new : List Token} {t : Token} {name : String}
      {bound : Nat} :
    I readings e (foreign ++ (front ++ t :: rest) ++ new) → t.kind = .inclusion name →
      (∀ r ∈ readings, (∀ u ∈ r.text, u.id < bound) ∨ ∀ u ∈ r.text, bound ≤ u.id) →
      (∀ u ∈ foreign ++ (front ++ t :: rest), u.id < bound) → (∀ u ∈ new, bound ≤ u.id) →
      I readings e (foreign ++ (front ++ new ++ rest))

-- Nothing here is older than the files that wait for their includes.
def Above (waiting : List Pending) (e : Expander) (live : List Token) : Prop :=
  ∀ pending ∈ waiting, pending.pass.expander.nextId ≤ e.nextId ∧ ∀ u ∈ live, pending.pass.expander.nextId ≤ u.id

inductive Outer : List Pending → Prop where
  | nil : Outer []
  | cons {pending : Pending} {waiting : List Pending} {name : String} (outer : Outer waiting)
      (sound : Sound (waitingTokens waiting) (pending.token :: pending.rest) pending.pass)
      (kind : pending.token.kind = .inclusion name) (above : Above waiting pending.pass.expander pending.program) :
      Outer (pending :: waiting)

-- One text is due while it is read. What is known of the texts before it is known of the tokens in their order.
structure Ledger (ctx : Context) (I : List Reading → Expander → List Token → Prop) (journal : Journal)
    (main : SourceText) (readings : List Reading) (due : List SourceText) (waiting : List Pending) (e : Expander)
    (live : List Token) : Prop where
  outer : Outer waiting
  holds : e.Holds (waitingTokens waiting ++ live)
  orderly : Orderly live
  above : Above waiting e live
  serials : ∀ r ∈ readings, ∀ u ∈ r.text, u.id < e.nextId
  sided : ∀ pending ∈ waiting, ∀ r ∈ readings,
    (∀ u ∈ r.text, u.id < pending.pass.expander.nextId) ∨ ∀ u ∈ r.text, pending.pass.expander.nextId ≤ u.id
  tracked : I readings e (waitingTokens waiting ++ live)
  listed : ∃ more, readings.map (·.source) ++ due = main :: more ∧ (∀ s ∈ more, OnDisk ctx s) ∧
    e.journal.opened = journal.opened ++ more.map (·.file)

namespace Ledger

variable {ctx : Context} {I : List Reading → Expander → List Token → Prop} {journal : Journal} {main : SourceText}
variable {readings : List Reading} {due : List SourceText} {waiting : List Pending} {e after lexed : Expander}
variable {live live' rest : List Token} {p q : Pass} {t : Token} {name : String} {span : BodySpan}
variable {source : List Char} {file : String} {path : Path} {limit : Int}

theorem move (ledger : Ledger ctx I journal main readings due waiting e live)
    (holds : after.Holds (waitingTokens waiting ++ live')) (orderly : Orderly live') (serial : e.nextId ≤ after.nextId)
    (recent : ∀ u ∈ live', e.nextId ≤ u.id ∨ ∃ t ∈ live, t.id = u.id)
    (tracked : I readings after (waitingTokens waiting ++ live'))
    (opened : after.journal.opened = e.journal.opened) :
    Ledger ctx I journal main readings due waiting after live' where
  outer := ledger.outer
  holds := holds
  orderly := orderly
  above pending member := by
    obtain ⟨state, tokens⟩ := ledger.above pending member
    refine ⟨Nat.le_trans state serial, ?_⟩
    intro u there
    rcases recent u there with new | ⟨t, old, same⟩
    · exact Nat.le_trans state new
    · exact same ▸ tokens t old
  serials r read u member := Nat.lt_of_lt_of_le (ledger.serials r read u member) serial
  sided := ledger.sided
  tracked := tracked
  listed := by
    rw [opened]
    exact ledger.listed

theorem aside (tracking : Tracking ctx I) (ledger : Ledger ctx I journal main readings due waiting e live)
    (symbols : after.symbols = e.symbols) (macros : after.macros = e.macros) (nextId : after.nextId = e.nextId)
    (opened : after.journal.opened = e.journal.opened) : Ledger ctx I journal main readings due waiting after live :=
  ledger.move (ledger.holds.aside symbols macros nextId) ledger.orderly (Nat.le_of_eq nextId.symm)
    (fun u member => .inr ⟨u, member, rfl⟩) (tracking.aside ledger.tracked symbols macros nextId) opened

theorem sound (ledger : Ledger ctx I journal main readings due waiting p.expander (p.output.toList ++ rest)) :
    Sound (waitingTokens waiting) rest p := ⟨ledger.holds, ledger.orderly⟩

theorem begin (tracking : Tracking ctx I) (journal : Journal) (chain : List Place) (s : SourceText) :
    Ledger ctx I journal s [] [s] [] { journal, chain } [] where
  outer := .nil
  holds := Input.holds_start journal chain
  orderly := .nil
  above _ member := nomatch member
  serials _ member := nomatch member
  sided _ member := nomatch member
  tracked := tracking.start journal chain
  listed := ⟨[], rfl, by simp, by simp⟩

theorem read (tracking : Tracking ctx I) (ledger : Ledger ctx I journal main readings [⟨file, source⟩] waiting e [])
    (ran : e.read ctx.settings source file = .ok lexed) :
    Ledger ctx I journal main
      (readings ++ [⟨⟨file, source⟩, waitingTokens waiting ++ e.macros.bodies, lexed.program⟩]) [] waiting lexed
      lexed.program := by
  have holds := ledger.holds
  have tracked := ledger.tracked
  rw [List.append_nil] at holds tracked
  obtain ⟨_, serial, ranged, _⟩ := read_records holds.custody.distinct ran
  obtain ⟨lexedHolds, orderly, _⟩ := (read_holds ctx.settings source file holds).ok ran
  have older (pending : Pending) (member : pending ∈ waiting) (u : Token) (new : u ∈ lexed.program) :
      pending.pass.expander.nextId ≤ u.id :=
    Nat.le_trans (ledger.above pending member).1 (ranged u new).1
  refine ⟨ledger.outer, lexedHolds, orderly, ?_, ?_, ?_, tracking.read tracked holds ran, ?_⟩
  · intro pending member
    exact ⟨Nat.le_trans (ledger.above pending member).1 serial, older pending member⟩
  · intro r member u there
    rcases List.mem_append.mp member with early | late
    · exact Nat.lt_of_lt_of_le (ledger.serials r early u there) serial
    · obtain rfl := List.mem_singleton.mp late
      exact (ranged u there).2
  · intro pending member r known
    rcases List.mem_append.mp known with early | late
    · exact ledger.sided pending member r early
    · obtain rfl := List.mem_singleton.mp late
      exact .inr (older pending member)
  · obtain ⟨more, listed, stored, opened⟩ := ledger.listed
    exact ⟨more, by simpa using listed, stored, (opened_read ran).trans opened⟩

theorem keep (ledger : Ledger ctx I journal main readings due waiting p.expander (p.output.toList ++ t :: rest)) :
    Ledger ctx I journal main readings due waiting (p.keep t).expander ((p.keep t).output.toList ++ rest) := by
  have same : (p.keep t).output.toList ++ rest = p.output.toList ++ t :: rest := by simp [Pass.keep]
  rw [same]
  exact ledger

theorem capture (tracking : Tracking ctx I)
    (ledger : Ledger ctx I journal main readings due waiting p.expander (p.output.toList ++ t :: rest))
    (kind : t.kind = .macroDefinition name false) (found : bodySpan rest = .ok span)
    (ran : capture p t name span = .ok q) :
    Ledger ctx I journal main readings due waiting q.expander (q.output.toList ++ span.rest) := by
  have sound := ledger.sound
  obtain ⟨_, _, ⟨_, missing⟩ | ⟨other, same, fits, taken⟩⟩ := definition_cases sound kind
  · rw [missing] at found
    cases found
  · rw [same] at found
    cases found
    obtain ⟨holds, orderly⟩ := taken.ok ran
    obtain rfl := capture_ok (sound.holds.unclaimed t (by simp) name kind) ran
    rw [Pass.replaceBy_append, List.append_assoc, List.cons_append] at holds orderly ⊢
    have tracked := tracking.captured ledger.tracked sound.orderly kind fits
    refine ledger.move holds orderly (Nat.le_refl _) ?_ (tracking.aside tracked rfl rfl rfl) rfl
    intro u member
    have cases : u = { t with kind := .macroDefinition name true } ∨ u ∈ p.output.toList ++ t :: rest := by
      rw [fits.parts]
      simp only [List.mem_append, List.mem_cons] at member ⊢
      tauto
    rcases cases with rfl | there
    · exact .inr ⟨t, by simp, rfl⟩
    · exact .inr ⟨u, there, rfl⟩

theorem unwrapToken (tracking : Tracking ctx I)
    (ledger : Ledger ctx I journal main readings due waiting p.expander (p.output.toList ++ t :: rest))
    (ran : unwrapToken limit p t = .ok q) :
    Ledger ctx I journal main readings due waiting q.expander (q.output.toList ++ rest) := by
  have sound := ledger.sound
  obtain ⟨holds, orderly⟩ := (unwrapToken_sound sound).ok ran
  rcases sound.unwrapToken_ok ran with rfl | ⟨m, r, c, kind, known, renamed, opened, rfl⟩
  · exact ledger.keep
  · rw [Pass.replaceBy_append] at holds orderly ⊢
    have tracked := tracking.copied ledger.tracked sound.holds kind known renamed
    refine ledger.move holds orderly (renamed.nextId_le t) ?_ (tracking.aside tracked rfl rfl rfl) opened
    intro u member
    have cases : u ∈ copyBody c.expander.nextId m.body c.label ∨ u ∈ p.output.toList ++ t :: rest := by
      simp only [List.mem_append, List.mem_cons] at member ⊢
      tauto
    rcases cases with copy | there
    · exact .inl (renamed.copy_fresh copy)
    · exact .inr ⟨u, there, rfl⟩

theorem result (tracking : Tracking ctx I)
    (ledger : Ledger ctx I journal main readings due waiting p.expander (p.output.toList ++ [])) :
    Ledger ctx I journal main readings due waiting p.result p.result.program := by
  rw [List.append_nil] at ledger
  exact ledger.aside tracking rfl rfl rfl rfl

-- The text that waits is older than all that is still to be read.
theorem opens (tracking : Tracking ctx I)
    (ledger : Ledger ctx I journal main readings [] waiting p.expander (p.output.toList ++ t :: rest))
    (kind : t.kind = .inclusion name) (stored : ctx.disk.readText path = .ok source) (room passes : Nat)
    (place : Place) :
    Ledger ctx I journal main readings [⟨path.text, source⟩] (⟨room, passes, p, t, path, rest⟩ :: waiting)
      ((p.expander.note (.including path.text t.location)).nested place) [] where
  outer := .cons ledger.outer ledger.sound kind ledger.above
  holds := by
    rw [List.append_nil]
    exact ledger.holds.aside rfl rfl rfl
  orderly := .nil
  above pending member := by
    refine ⟨?_, by simp⟩
    rcases List.mem_cons.mp member with rfl | outer
    · exact Nat.le_refl _
    · exact (ledger.above pending outer).1
  serials := ledger.serials
  sided pending member r known := by
    rcases List.mem_cons.mp member with rfl | outer
    · exact .inl (ledger.serials r known)
    · exact ledger.sided pending outer r known
  tracked := by
    rw [List.append_nil]
    exact tracking.aside ledger.tracked rfl rfl rfl
  listed := by
    obtain ⟨more, listed, onDisk, opened⟩ := ledger.listed
    refine ⟨more ++ [⟨path.text, source⟩], ?_, ?_, ?_⟩
    · rw [List.append_nil] at listed
      rw [listed, List.cons_append]
    · intro s member
      rcases List.mem_append.mp member with early | late
      · exact onDisk s early
      · obtain rfl := List.mem_singleton.mp late
        exact ⟨path, stored, rfl⟩
    · change p.expander.journal.opened ++ [path.text] = _
      rw [opened, List.map_append, List.append_assoc]
      rfl

-- The program of a file takes the place of the inclusion.
theorem closes {pending : Pending} {inner : Expander} (tracking : Tracking ctx I)
    (ledger : Ledger ctx I journal main readings [] (pending :: waiting) inner inner.program) :
    let q := pending.pass.replaceBy ((pending.pass.expander.absorb inner).addStats inner.stats) inner.program
    Ledger ctx I journal main readings [] waiting q.expander (q.output.toList ++ pending.rest) := by
  intro q
  cases ledger.outer with
  | cons outer sound kind above =>
    have here : pending ∈ pending :: waiting := List.mem_cons_self
    have holds : inner.Holds (waitingTokens waiting ++ pending.program ++ inner.program) := ledger.holds
    have after : Sound (waitingTokens waiting) pending.rest q :=
      sound_replace sound (by rw [kind]; rfl) (by rw [kind]; rfl) (holds.aside rfl rfl rfl) ledger.orderly
    have old : ∀ u ∈ waitingTokens waiting ++ pending.program, u.id < pending.pass.expander.nextId :=
      fun u member => sound.holds.custody.fresh u (List.mem_append_left _ member)
    have tracked : I readings inner
        (waitingTokens waiting ++ (pending.pass.output.toList ++ inner.program ++ pending.rest)) :=
      tracking.spliced ledger.tracked kind (ledger.sided pending here) old (ledger.above pending here).2
    have written : q.output.toList ++ pending.rest = pending.pass.output.toList ++ inner.program ++ pending.rest :=
      Pass.replaceBy_append _ _ _ _
    refine ⟨outer, after.holds, after.orderly, ?_, ledger.serials, ?_, ?_, ledger.listed⟩
    · intro other member
      obtain ⟨state, inside⟩ := ledger.above other (List.mem_cons_of_mem _ member)
      refine ⟨state, ?_⟩
      intro u there
      have cases : u ∈ inner.program ∨ u ∈ pending.program := by
        rw [written] at there
        simp only [Pending.program, List.mem_append, List.mem_cons] at there ⊢
        tauto
      rcases cases with new | around
      · exact inside u new
      · exact (above other member).2 u around
    · intro other member
      exact ledger.sided other (List.mem_cons_of_mem _ member)
    · rw [written]
      exact tracking.aside tracked rfl rfl rfl

end Ledger

namespace Scene

open Moment

variable {ctx : Context} {I : List Reading → Expander → List Token → Prop} {journal : Journal} {main : SourceText}
variable {start m m' : Scene} {readings : List Reading}

def Tracked (ctx : Context) (I : List Reading → Expander → List Token → Prop) (journal : Journal) (main : SourceText)
    (readings : List Reading) : Scene → Prop
  | ⟨waiting, .reading _ e source file⟩ => Ledger ctx I journal main readings [⟨file, source⟩] waiting e []
  | ⟨waiting, .settling _ _ e⟩ => Ledger ctx I journal main readings [] waiting e e.program
  | ⟨waiting, .rewriting _ _ p ahead⟩ =>
    Ledger ctx I journal main readings [] waiting p.expander (p.output.toList ++ ahead)
  | ⟨waiting, .unwrapping _ _ _ p ahead⟩ =>
    Ledger ctx I journal main readings [] waiting p.expander (p.output.toList ++ ahead)
  | ⟨waiting, .ended (.ok e)⟩ => Ledger ctx I journal main readings [] waiting e e.program
  | ⟨_, .ended (.error _)⟩ => True

theorem Step.tracked (tracking : Tracking ctx I) (step : Step ctx m m')
    (before : m.Tracked ctx I journal main readings) :
    m'.Tracked ctx I journal main (readings ++ (m.reading? ctx).toList) := by
  -- Only one of the steps reads.
  have silent {m m' : Scene} (nothing : m.reading? ctx = none) (after : m'.Tracked ctx I journal main readings) :
      m'.Tracked ctx I journal main (readings ++ (m.reading? ctx).toList) := by
    rw [nothing, Option.toList_none, List.append_nil]
    exact after
  cases step with
  | @read waiting room e source file =>
    cases ran : e.read ctx.settings source file with
    | error stop => trivial
    | ok lexed =>
      have noted : (⟨waiting, .reading room e source file⟩ : Scene).reading? ctx =
          some ⟨⟨file, source⟩, waitingTokens waiting ++ e.macros.bodies, lexed.program⟩ := by
        simp [reading?, ran, Except.toOption]
      rw [noted]
      exact Ledger.read tracking before ran
  | exhausted => exact silent rfl trivial
  | begun => exact silent rfl (Ledger.aside tracking before rfl rfl rfl rfl)
  | kept => exact silent rfl (Ledger.keep before)
  | confirmed kind =>
    refine silent rfl (onward_cases (fun _ _ => trivial) fun q ran => ?_)
    obtain rfl := confirm_keep ((Ledger.sound before).claimed kind) ran
    exact Ledger.keep before
  | bodiless => exact silent rfl trivial
  | unpaired => exact silent rfl trivial
  | captured kind found =>
    exact silent rfl (onward_cases (fun _ _ => trivial) fun q ran => Ledger.capture tracking before kind found ran)
  | barred => exact silent rfl trivial
  | opened kind found new stored => exact silent rfl (Ledger.opens tracking before kind stored _ _ _)
  | turned => exact silent rfl (Ledger.result tracking before)
  | unwrapped =>
    exact silent rfl (onward_cases (fun _ _ => trivial) fun q ran => Ledger.unwrapToken tracking before ran)
  | again => exact silent rfl (Ledger.result tracking before)
  | stable => exact silent rfl ((Ledger.result tracking before).aside tracking rfl rfl rfl rfl)
  | closed => exact silent rfl (Ledger.closes tracking before)
  | unwound => exact silent rfl trivial

theorem Course.tracked (tracking : Tracking ctx I) (course : Course ctx start readings m)
    (begins : start.Tracked ctx I journal main []) : m.Tracked ctx I journal main readings := by
  induction course with
  | start => exact begins
  | step _ step ih => exact step.tracked tracking ih

end Scene

-- What reaches over each action is true at the end.
theorem Tracking.input {ctx : Context} {I : List Reading → Expander → List Token → Prop} {input : Input}
    {journal : Journal} {e : Expander} (tracking : Tracking ctx I) (ran : input.expand ctx { journal } = .ok e) :
    ∃ main others, ReadInTurn ctx input journal e main others ∧ I (main :: others) e e.program := by
  cases begins : input.opening ctx journal with
  | none =>
    obtain ⟨_, _, _, failed⟩ := Input.opening_none begins
    rw [ran] at failed
    cases failed
  | some start =>
    obtain ⟨chain, source, file, given, rfl, same⟩ := Input.opening_some begins
    obtain ⟨readings, course⟩ := (Scene.leads_run ctx (Scene.begin ctx { journal, chain } source file)).course
    rw [← same, ran] at course
    have ledger : Ledger ctx I journal ⟨file, source⟩ readings [] [] e e.program :=
      course.tracked tracking (Ledger.begin tracking journal chain ⟨file, source⟩)
    obtain ⟨more, listed, stored, opened⟩ := ledger.listed
    rw [List.append_nil] at listed
    obtain ⟨main, others, rfl, first, rest⟩ := List.map_eq_cons_iff.mp listed
    subst rest
    refine ⟨main, others, ⟨⟨_, begins, course⟩, ?_, ?_, ?_, course.reads⟩, ledger.tracked⟩
    · rw [first]
      exact given
    · rw [opened, List.map_map]
      rfl
    · intro r member
      exact stored r.source (List.mem_map_of_mem member)

end RuneAsm
