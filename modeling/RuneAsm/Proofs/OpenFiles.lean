import Mathlib
import RuneAsm.Proofs.Moments
import RuneAsm.Proofs.Outcomes

namespace RuneAsm

open Run

namespace Failure

variable {f : Failure} {kinds : List Kind}

def TellsCircle (f : Failure) : Prop :=
  ∃ d name fault searched, f = .report d ∧ d.cause = .inclusion name fault searched ∧
    fault.text = "circular include detected"

def circle (t : Token) (name : String) : Failure := .report ⟨.inclusion name .circular [], some t.location, none⟩

theorem Within.no_circle (within : f.Within kinds) (apart : .inclusion ∉ kinds) : ¬ f.TellsCircle := by
  rintro ⟨_, name, fault, searched, rfl, cause, _⟩
  obtain ⟨d, same, member⟩ := within
  cases same
  rw [cause] at member
  exact apart member

end Failure

theorem ne_circular_of_head {text : String} (first : text.toList.head? ≠ some 'c') :
    text ≠ "circular include detected" := by
  rintro rfl
  exact first rfl

theorem InclusionFault.tooDeep_ne_circular (limit : Int) :
    (InclusionFault.tooDeep limit).text ≠ "circular include detected" := by
  unfold InclusionFault.text
  apply ne_circular_of_head
  generalize toString limit = shown
  simp [ToString.toString]

-- What the file system and the decoder say does not read like it either.
theorem Disk.readText_ne_circular {disk : Disk} {path : Path} {f : Failure} (refused : disk.readText path = .error f) :
    f.message ≠ "circular include detected" := by
  apply ne_circular_of_head
  unfold readText at refused
  split at refused
  · rename_i e _
    cases refused
    unfold Failure.message FileError.message
    generalize toString e.code = code
    simp [ToString.toString]
  · split at refused
    · rename_i fault _
      cases refused
      unfold Failure.message Text.Utf8.Fault.message
      dsimp only
      split <;> simp [ToString.toString]
    · cases refused

theorem Disk.readText_no_circle {disk : Disk} {path : Path} {f : Failure} (refused : disk.readText path = .error f) :
    ¬ f.TellsCircle := by
  rintro ⟨d, _, _, _, rfl, _⟩
  unfold readText at refused
  split at refused
  · cases refused
  · split at refused <;> cases refused

-- Whatever the table holds, a text is refused for what it says.
theorem Reader.run_faults {r : Reader} (start : InScope r.scope) :
    Ends (fun _ => True) (Failure.Within faults) r.run := by
  have steps : Ends (fun _ => True) (Failure.Within faults) (Run.each step r (Lexeme.all r.source)) := by
    refine (ends_each (fun rest r => InScope r.scope ∧ ∀ lexeme ∈ rest, lexeme.Proper) ?_
      ⟨start, Lexeme.all_proper r.source⟩).mono (fun _ _ => trivial) (fun _ failed => failed)
    rintro r lexeme rest ⟨inScope, proper⟩
    have taken := take_taken inScope (proper lexeme List.mem_cons_self)
    unfold step
    cases ran : r.take lexeme with
    | error stop => exact taken.error ran
    | ok next =>
      obtain ⟨line, column, moved⟩ := foldl_advance lexeme.text next
      change InScope (lexeme.text.foldl advance next).scope ∧ _
      rw [moved]
      exact ⟨(taken.ok ran).inScope inScope, fun other member => proper other (List.mem_cons_of_mem _ member)⟩
  refine steps.andThen ?_
  intro last _
  unfold finish
  split
  · trivial
  · exact ⟨_, rfl, by simp [Cause.kind, faults]⟩

namespace Expander

variable {e : Expander} {p : Pass} {t : Token} {name : String} {span : BodySpan} {limit : Int}

-- The families of what can go wrong in one text without regard to any other.
def ownFaults : List Kind := Reader.faults ++ [.macroMisuse]

theorem ownFaults_apart : Kind.inclusion ∉ ownFaults := by decide

theorem read_files (settings : Settings) (source : List Char) (file : String) (e : Expander) :
    Ends (fun lexed => lexed.chain = e.chain) (Failure.Within ownFaults) (e.read settings source file) := by
  have start : Reader.InScope (e.reader settings source file).scope := nofun
  have ends := Reader.run_faults start
  rw [read_eq]
  split
  · rfl
  · rename_i stop failed
    exact (ends.error failed).mono (List.subset_append_left _ _)

theorem capture_files :
    Ends (fun q => q.expander.chain = p.expander.chain) (Failure.Within ownFaults) (capture p t name span) := by
  unfold capture
  dsimp only
  split
  · exact ⟨_, rfl, by simp [Cause.kind, ownFaults]⟩
  · rfl

theorem confirm_files :
    Ends (fun q => q.expander.chain = p.expander.chain) (Failure.Within ownFaults) (confirm p t name) := by
  unfold confirm
  dsimp only
  split
  · exact ⟨_, rfl, by simp [Cause.kind, ownFaults]⟩
  · rfl

theorem renameCloser_files {c : Copying} :
    Ends (fun c' => c'.expander.chain = c.expander.chain) (Failure.Within ownFaults) (renameCloser c t) := by
  unfold renameCloser
  split
  · dsimp only
    split
    · rfl
    · exact ⟨_, rfl, by simp [Cause.kind, ownFaults, Reader.faults]⟩
  · rfl

theorem expandMacro_files {m : Macro} :
    Ends (fun q => q.expander.chain = p.expander.chain) (Failure.Within ownFaults) (expandMacro m t p) := by
  have copied : Ends (fun c => c.expander.chain = p.expander.chain) (Failure.Within ownFaults)
      (Run.each renameCloser ⟨p.expander, []⟩ m.body) := by
    refine ends_each (fun _ (c : Copying) => c.expander.chain = p.expander.chain) ?_ rfl
    intro c t _ same
    exact renameCloser_files.mono (fun _ next => next.trans same) (fun _ failed => failed)
  unfold expandMacro
  split
  · rename_i stop failed
    exact copied.error failed
  · rename_i copying ran
    exact copied.ok ran

theorem unwrapToken_files :
    Ends (fun q => q.expander.chain = p.expander.chain) (Failure.Within ownFaults) (unwrapToken limit p t) := by
  unfold unwrapToken
  split
  · rfl
  · split
    · exact ⟨_, rfl, by simp [Cause.kind, ownFaults]⟩
    · exact expandMacro_files

end Expander

-- The files of the inclusions under way, outermost first.
def Scene.places (ctx : Context) (waiting : List Pending) : List Place :=
  waiting.reverse.map fun pending => ctx.disk.resolve pending.path

namespace Input

-- The file that the call starts from is open all the time; a text has no place of its own.
def files (ctx : Context) : Input → List Place
  | .text _ _ => []
  | .stored path => [ctx.disk.resolve path]

def openFiles (ctx : Context) (input : Input) (m : Scene) : List Place := input.files ctx ++ Scene.places ctx m.waiting

-- The next token includes a file that is open.
def Circles (ctx : Context) (input : Input) (m : Scene) (t : Token) (name : String) : Prop :=
  ∃ room passes p rest path, m.moment = .rewriting room passes p (t :: rest) ∧ t.kind = .inclusion name ∧
    Expander.findFile ctx name t.location.file = some path ∧ ctx.disk.resolve path ∈ input.openFiles ctx m

end Input

namespace Scene

open Moment Expander

variable {ctx : Context} {base : List Place} {waiting : List Pending} {m m' start : Scene} {input : Input}

theorem places_cons (pending : Pending) (waiting : List Pending) :
    places ctx (pending :: waiting) = places ctx waiting ++ [ctx.disk.resolve pending.path] := by
  simp [places]

-- The chain of an expansion names the files that are open around it, and the room to spare is what the limit leaves.
structure Level (ctx : Context) (base : List Place) (waiting : List Pending) (room : Nat) (chain : List Place) : Prop where
  chain : chain = base ++ places ctx waiting
  exact : (room : Int) + (base ++ places ctx waiting).length = ctx.settings.maxIncludeDepth

-- Each inclusion under way has opened a file that was not open yet.
inductive Stacked (ctx : Context) (base : List Place) : List Pending → Prop where
  | nil (distinct : base.Nodup) (within : (base.length : Int) ≤ ctx.settings.maxIncludeDepth) : Stacked ctx base []
  | cons {pending : Pending} {waiting : List Pending} (outer : Stacked ctx base waiting)
      (level : Level ctx base waiting pending.room pending.pass.expander.chain) (free : pending.room ≠ 0)
      (new : ctx.disk.resolve pending.path ∉ base ++ places ctx waiting) : Stacked ctx base (pending :: waiting)

theorem Stacked.bounded (stacked : Stacked ctx base waiting) : (base ++ places ctx waiting).Nodup ∧
    ((base ++ places ctx waiting).length : Int) ≤ ctx.settings.maxIncludeDepth := by
  induction stacked with
  | nil distinct within => simpa [places] using ⟨distinct, within⟩
  | @cons pending waiting outer level free new ih =>
    rw [places_cons, ← List.append_assoc]
    refine ⟨List.nodup_append.mpr ⟨ih.1, List.nodup_singleton _, ?_⟩, ?_⟩
    · rintro place earlier _ last rfl
      exact new (List.mem_singleton.mp last ▸ earlier)
    · have exact := level.exact
      rw [List.length_append, List.length_singleton]
      omega

def AtLevel (ctx : Context) (base : List Place) (waiting : List Pending) : Moment → Prop
  | .reading room e _ _ => Level ctx base waiting room e.chain
  | .settling room _ e => Level ctx base waiting room e.chain
  | .rewriting room _ p _ => Level ctx base waiting room p.expander.chain
  | .unwrapping room _ _ p _ => Level ctx base waiting room p.expander.chain
  | .ended _ => True

structure Guarded (ctx : Context) (base : List Place) (m : Scene) : Prop where
  stacked : Stacked ctx base m.waiting
  level : AtLevel ctx base m.waiting m.moment

theorem Step.guarded (step : Step ctx m m') (guarded : Guarded ctx base m) : Guarded ctx base m' := by
  obtain ⟨stacked, level⟩ := guarded
  -- An activity that opens no file stays on its level.
  have onward {waiting : List Pending} {x : Run Pass} {go : Pass → Moment} (stacked : Stacked ctx base waiting)
      (goes : ∀ p, x = .ok p → AtLevel ctx base waiting (go p)) : Guarded ctx base ⟨waiting, onward x go⟩ :=
    ⟨stacked, onward_cases (fun _ _ => trivial) goes⟩
  cases step with
  | read =>
    refine ⟨stacked, lexed_cases (fun _ _ => trivial) fun lexed read => ?_⟩
    have same := (read_files _ _ _ _).ok read
    exact ⟨same.trans level.chain, level.exact⟩
  | exhausted => exact ⟨stacked, trivial⟩
  | begun => exact ⟨stacked, level.chain, level.exact⟩
  | kept => exact ⟨stacked, level.chain, level.exact⟩
  | confirmed =>
    exact onward stacked fun q ran => ⟨(confirm_files.ok ran).trans level.chain, level.exact⟩
  | bodiless => exact ⟨stacked, trivial⟩
  | unpaired => exact ⟨stacked, trivial⟩
  | captured =>
    exact onward stacked fun q ran => ⟨(capture_files.ok ran).trans level.chain, level.exact⟩
  | barred => exact ⟨stacked, trivial⟩
  | @opened waiting room passes p t rest name path source kind found new stored =>
    have here : Level ctx base waiting (room + 1) p.expander.chain := level
    have closed : ctx.disk.resolve path ∉ base ++ places ctx waiting := here.chain ▸ new
    refine ⟨.cons stacked here (Nat.succ_ne_zero room) closed, ?_, ?_⟩
    · rw [places_cons, ← List.append_assoc, ← here.chain]
      rfl
    · have exact := here.exact
      rw [places_cons, ← List.append_assoc, List.length_append, List.length_singleton]
      omega
  | turned => exact ⟨stacked, level.chain, level.exact⟩
  | unwrapped =>
    exact onward stacked fun q ran => ⟨(unwrapToken_files.ok ran).trans level.chain, level.exact⟩
  | again => exact ⟨stacked, level.chain, level.exact⟩
  | stable => exact ⟨stacked, trivial⟩
  | closed =>
    cases stacked with
    | cons outer level free new => exact ⟨outer, level.chain, level.exact⟩
  | unwound =>
    cases stacked with
    | cons outer level free new => exact ⟨outer, trivial⟩

theorem guarded_begin (deep : 1 ≤ ctx.settings.maxIncludeDepth) {journal : Journal}
    (begins : input.opening ctx journal = some start) : Guarded ctx (input.files ctx) start := by
  cases input with
  | text source file =>
    cases begins
    refine ⟨.nil List.nodup_nil (by simp [Input.files]; omega), rfl, ?_⟩
    simp [begin, Input.files, places, room]
    omega
  | stored path =>
    obtain ⟨source, _, rfl⟩ := Option.map_eq_some_iff.mp begins
    refine ⟨.nil (List.nodup_singleton _) deep, rfl, ?_⟩
    simp [begin, Input.files, places, room]
    omega

-- What is told of a circle, once the text at hand has failed, was met on the way.
def Tells (ctx : Context) (input : Input) (start m : Scene) : Prop :=
  ∀ f e, m.moment = .ended (.error ⟨f, e⟩) → f.TellsCircle →
    ∃ met t name, Leads ctx start met ∧ input.Circles ctx met t name ∧ f = .circle t name

theorem barred_circle {room : Nat} {p : Pass} {t : Token} {name : String} {cause : Cause}
    (bar : Barred ctx room p t name cause) (told : (Failure.report ⟨cause, some t.location, none⟩).TellsCircle) :
    ∃ path, findFile ctx name t.location.file = some path ∧ ctx.disk.resolve path ∈ p.expander.chain ∧
      cause = .inclusion name .circular [] := by
  obtain ⟨d, other, fault, searched, report, same, text⟩ := told
  cases report
  cases bar with
  | circular found open_ => exact ⟨_, found, open_, rfl⟩
  | missing nowhere =>
    cases same
    exact absurd text (by decide)
  | tooDeep found new full =>
    cases same
    exact absurd text (InclusionFault.tooDeep_ne_circular _)
  | unreadable found new free refused =>
    cases same
    exact absurd text (Disk.readText_ne_circular refused)

theorem Step.tells (leads : Leads ctx start m) (step : Step ctx m m') (guarded : Guarded ctx (input.files ctx) m)
    (tells : Tells ctx input start m) : Tells ctx input start m' := by
  have silent {waiting : List Pending} {stop : Stop Expander} (own : stop.failure.Within ownFaults) :
      Tells ctx input start ⟨waiting, .ended (.error stop)⟩ := by
    rintro _ _ ⟨⟩ told
    exact absurd told (own.no_circle ownFaults_apart)
  have onward {waiting : List Pending} {x : Run Pass} {go : Pass → Moment} {good : Pass → Prop}
      (ends : Ends good (Failure.Within ownFaults) x) (goes : ∀ q stop, go q ≠ .ended (.error stop)) :
      Tells ctx input start ⟨waiting, onward x go⟩ := by
    refine onward_cases (motive := fun moment => Tells ctx input start ⟨waiting, moment⟩) ?_ ?_
    · exact fun stop failed => silent (ends.error failed)
    · exact fun q _ f e ended => absurd ended (goes q ⟨f, e⟩)
  cases step with
  | read =>
    refine lexed_cases (motive := fun moment => Tells ctx input start ⟨_, moment⟩) ?_ ?_
    · exact fun stop failed => silent ((read_files _ _ _ _).error failed)
    · rintro e _ f _ ⟨⟩
  | exhausted => exact silent ⟨_, rfl, by simp [Cause.kind, ownFaults]⟩
  | begun => rintro f e ⟨⟩
  | kept => rintro f e ⟨⟩
  | confirmed => exact onward confirm_files (by simp)
  | bodiless => exact silent ⟨_, rfl, by simp [Cause.kind, ownFaults]⟩
  | unpaired =>
    rintro f e ⟨⟩ ⟨d, _, _, _, report, _⟩
    cases report
  | captured => exact onward capture_files (by simp)
  | @barred waiting room passes p t rest name cause kind bar =>
    rintro f e ⟨⟩ told
    obtain ⟨path, found, open_, rfl⟩ := barred_circle bar told
    have level : Level ctx (input.files ctx) waiting room p.expander.chain := guarded.level
    rw [level.chain] at open_
    exact ⟨_, t, name, leads, ⟨room, passes, p, rest, path, rfl, kind, found, open_⟩, rfl⟩
  | opened => rintro f e ⟨⟩
  | turned => rintro f e ⟨⟩
  | unwrapped => exact onward unwrapToken_files (by simp)
  | again => rintro f e ⟨⟩
  | stable => rintro f e ⟨⟩
  | closed => rintro f e ⟨⟩
  | unwound =>
    rintro f e ⟨⟩ told
    exact tells _ _ rfl told

theorem Circles.failure {t : Token} {name : String} (guarded : Guarded ctx (input.files ctx) m)
    (circles : input.Circles ctx m t name) : (m.run ctx).failure? = some (.circle t name) := by
  obtain ⟨waiting, moment⟩ := m
  obtain ⟨room, passes, p, rest, path, rfl, kind, found, member⟩ := circles
  have level : Level ctx (input.files ctx) waiting room p.expander.chain := guarded.level
  have bar : Barred ctx room p t name (.inclusion name .circular []) := .circular found (level.chain.symm ▸ member)
  rw [(Step.barred kind bar).run_eq]
  exact run_failed ctx waiting _

end Scene

namespace Assembler

variable {a : Assembler}

-- A moment of a call that expands its input.
def Reaches (a : Assembler) (disk : Disk) (input : Input) (m : Scene) : Prop :=
  ∃ start, input.opening ⟨a.settings, disk⟩ [.assembling input.name] = some start ∧
    Scene.Leads ⟨a.settings, disk⟩ start m

-- Without an inclusion left, what goes wrong after the expansion is no inclusion.
theorem assembleInput_circle {disk : Disk} {input : Input} {f : Failure}
    (failed : (a.assembleInput disk input).failure? = some f) (told : f.TellsCircle) :
    (input.expand ⟨a.settings, disk⟩ { journal := [.assembling input.name] }).failure? = some f := by
  rw [assembleInput_eq] at failed
  unfold assembleWith at failed
  dsimp only at failed
  split at failed
  · rename_i stop stopped
    change input.expand ⟨a.settings, disk⟩ { journal := [.assembling input.name] } = .error stop at stopped
    rw [stopped]
    exact failed
  · rename_i e expanded
    obtain ⟨holds, orderly, settled⟩ := Input.expand_prepared expanded
    let laid : Assembler := { (a.reset.note (.assembling input.name)).absorb e with tokens := e.program }
    have ends : Ends _ (Failure.Within buildFaults) (laid.note laid.preprocessed).build :=
      build_ends orderly settled.spliced holds.labels
    cases built : (laid.note laid.preprocessed).build with
    | ok b =>
      rw [built] at failed
      cases failed
    | error stop =>
      rw [built] at failed
      cases failed
      exact absurd told ((ends.error built).no_circle (by decide))

theorem expand_failure {disk : Disk} {input : Input} {f : Failure}
    (failed : (input.expand ⟨a.settings, disk⟩ { journal := [.assembling input.name] }).failure? = some f) :
    (a.assembleInput disk input).failure? = some f := by
  obtain ⟨stop, stopped, rfl⟩ := eq_error_of_failure? failed
  rw [assembleInput_eq, assembleWith_error a stopped]
  rfl

-- The files open at a moment are the one that the call starts from and those of the inclusions under way. From whatever
-- input and on whatever disk, the steps of a call come to an end, which is the outcome of its expansion; no file is open
-- twice or beyond the limit; an inclusion of an open file ends the call and is told, and what is told of a circle was
-- met there.
theorem open_files_bounded_and_circles_told (a : Assembler) (disk : Disk) (input : Input)
    (deep : 1 ≤ a.settings.maxIncludeDepth) :
    let ctx : Context := ⟨a.settings, disk⟩
    (WellFounded fun later earlier => Scene.Step ctx earlier later) ∧
    (∀ start, input.opening ctx [.assembling input.name] = some start →
      Scene.Leads ctx start ⟨[], .ended (input.expand ctx { journal := [.assembling input.name] })⟩) ∧
    (∀ m, a.Reaches disk input m → (input.openFiles ctx m).Nodup ∧
      ((input.openFiles ctx m).length : Int) ≤ a.settings.maxIncludeDepth) ∧
    (∀ m t name, a.Reaches disk input m → input.Circles ctx m t name →
      (a.assembleInput disk input).failure? = some (.circle t name)) ∧
    ∀ f, (a.assembleInput disk input).failure? = some f → f.TellsCircle →
      ∃ m t name, a.Reaches disk input m ∧ input.Circles ctx m t name ∧ f = .circle t name := by
  intro ctx
  have guarded {start m : Scene} (begins : input.opening ctx [.assembling input.name] = some start)
      (leads : Scene.Leads ctx start m) : Scene.Guarded ctx (input.files ctx) m :=
    leads.keeps (fun _ _ step => step.guarded) (Scene.guarded_begin deep begins)
  refine ⟨Scene.step_wellFounded ctx, ?_, ?_, ?_, ?_⟩
  · intro start begins
    obtain ⟨_, _, _, _, _, ran⟩ := Input.opening_some begins
    rw [ran]
    exact Scene.leads_run ctx start
  · rintro m ⟨start, begins, leads⟩
    exact (guarded begins leads).stacked.bounded
  · rintro m t name ⟨start, begins, leads⟩ circles
    obtain ⟨_, _, _, _, _, ran⟩ := Input.opening_some begins
    apply expand_failure
    rw [ran, leads.run_eq]
    exact Scene.Circles.failure (guarded begins leads) circles
  · intro f failed told
    have earlier := assembleInput_circle failed told
    cases begins : input.opening ctx [.assembling input.name] with
    | none =>
      obtain ⟨path, g, refused, stopped⟩ := Input.opening_none begins
      rw [stopped] at earlier
      cases earlier
      exact absurd told (Disk.readText_no_circle refused)
    | some start =>
      obtain ⟨_, _, _, _, fresh, ran⟩ := Input.opening_some begins
      rw [ran] at earlier
      obtain ⟨stop, stopped, rfl⟩ := eq_error_of_failure? earlier
      have tells : Scene.Leads ctx start ⟨[], .ended (start.run ctx)⟩ ∧
          Scene.Tells ctx input start ⟨[], .ended (start.run ctx)⟩ := by
        refine Scene.run_keeps (motive := fun m => Scene.Leads ctx start m ∧ Scene.Tells ctx input start m) ?_ start
          ⟨.refl, ?_⟩
        · rintro m m' step ⟨leads, tells⟩
          exact ⟨leads.tail step, step.tells leads (guarded begins leads) tells⟩
        · rw [fresh]
          rintro f e ⟨⟩
      rw [stopped] at tells
      obtain ⟨m, t, name, leads, circles, same⟩ := tells.2 _ _ rfl told
      exact ⟨m, t, name, ⟨start, begins, leads⟩, circles, same⟩

-- Three files, the last of which includes the second by the body of a macro: the circle closes inside the included ones,
-- and is told of the inclusion in the last while all three are open.
theorem circle_of_included_files_told :
    let disk : Disk := ⟨[], [(["h"], .file "~f".toUTF8.toList), (["f"], .file "~g".toUTF8.toList),
      (["g"], .file "%m [ ~f ] m".toUTF8.toList)]⟩
    let input : Input := .stored (.ofString "h")
    (∀ m, ({} : Assembler).Reaches disk input m → (input.openFiles ⟨{}, disk⟩ m).Nodup ∧
      ((input.openFiles ⟨{}, disk⟩ m).length : Int) ≤ 64) ∧
    ∃ m t, ({} : Assembler).Reaches disk input m ∧ input.Circles ⟨{}, disk⟩ m t "f" ∧ t.location = ⟨"g", 1, 6⟩ ∧
      ["f"] ∈ input.openFiles ⟨{}, disk⟩ m ∧
      (({} : Assembler).assembleInput disk input).failure? = some (.circle t "f") := by
  intro disk input
  obtain ⟨_, _, bounded, _, met⟩ := open_files_bounded_and_circles_told {} disk input (by decide)
  have failed : (({} : Assembler).assembleInput disk input).failure? =
      some (.report ⟨.inclusion "f" .circular [], some ⟨"g", 1, 6⟩, none⟩) := by decide +kernel
  obtain ⟨m, t, name, reached, circles, told⟩ := met _ failed ⟨_, _, _, _, rfl, rfl, rfl⟩
  have same : (⟨"g", 1, 6⟩ : Location) = t.location ∧ "f" = name := by
    simpa [Failure.circle, and_comm] using told
  obtain ⟨place, rfl⟩ := same
  have member : ["f"] ∈ input.openFiles ⟨{}, disk⟩ m := by
    obtain ⟨room, passes, p, rest, path, _, _, found, member⟩ := circles
    rw [← place] at found
    have here : (Expander.findFile ⟨{}, disk⟩ "f" "g").map disk.resolve = some ["f"] := by decide +kernel
    rw [found] at here
    exact Option.some.inj here ▸ member
  exact ⟨bounded, m, t, reached, circles, place.symm, member, told ▸ failed⟩

end Assembler

end RuneAsm
