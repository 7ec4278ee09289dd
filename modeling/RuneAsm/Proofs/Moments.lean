import Mathlib
import RuneAsm.Proofs.Inputs

namespace RuneAsm

open Run Expander

-- An expansion in small steps. The recursion into included files becomes a stack of the inclusions under way, so
-- that what holds at every moment can be shown one step at a time, for texts that succeed and for texts that fail.

-- An inclusion under way: the pass that waits for it, its token, the file that it has opened, and the tokens behind it.
structure Pending where
  room : Nat
  passes : Nat
  pass : Pass
  token : Token
  path : Path
  rest : List Token

-- What becomes of the text at hand. There is room for so many more files to be open at once, and so many passes may
-- follow; whether the first half of a pass has changed something is remembered in the second.
inductive Moment where
  | reading (room : Nat) (e : Expander) (source : List Char) (file : String)
  | settling (room passes : Nat) (e : Expander)
  | rewriting (room passes : Nat) (p : Pass) (ahead : List Token)
  | unwrapping (room passes : Nat) (changed : Bool) (p : Pass) (ahead : List Token)
  | ended (x : Run Expander)

-- Innermost first.
structure Scene where
  waiting : List Pending
  moment : Moment

namespace Moment

variable {ctx : Context} {room passes : Nat}

def lexed (ctx : Context) (room : Nat) : Run Expander → Moment
  | .ok e => .settling room ctx.settings.maxPasses.toNat e
  | .error stop => .ended (.error stop)

def onward (x : Run Pass) (go : Pass → Moment) : Moment :=
  match x with
  | .ok p => go p
  | .error stop => .ended (.fail stop.state.expander stop.failure)

-- The two halves of a pass are over, or one of them has failed.
def conclude (ctx : Context) (room passes : Nat) (changed : Bool) : Run Pass → Run Expander
  | .error stop => .fail stop.state.expander stop.failure
  | .ok p =>
    if changed || p.changed then settle ctx (below ctx room) passes p.result
    else .ok (p.result.note (.stable p.result.stats.passes p.result.stats.rewrites))

def finish (ctx : Context) (room passes : Nat) : Run Pass → Run Expander
  | .error stop => .fail stop.state.expander stop.failure
  | .ok p => conclude ctx room passes p.changed (unwrap ctx.settings.maxExpansions p.result)

-- How the text at hand ends.
def run (ctx : Context) : Moment → Run Expander
  | .reading room e source file => (e.read ctx.settings source file).andThen (expand ctx room)
  | .settling room passes e => settle ctx (below ctx room) passes e
  | .rewriting room passes p ahead => finish ctx room passes (rewrite ctx (below ctx room) ahead p)
  | .unwrapping room passes changed p ahead =>
    conclude ctx room passes changed (Run.each (unwrapToken ctx.settings.maxExpansions) p ahead)
  | .ended x => x

@[elab_as_elim] theorem lexed_cases {motive : Moment → Prop} {x : Run Expander} {room : Nat}
    (ends : ∀ stop, x = .error stop → motive (.ended (.error stop)))
    (goes : ∀ e, x = .ok e → motive (.settling room ctx.settings.maxPasses.toNat e)) : motive (lexed ctx room x) := by
  cases x with
  | ok e => exact goes e rfl
  | error stop => exact ends stop rfl

@[elab_as_elim] theorem onward_cases {motive : Moment → Prop} {x : Run Pass} {go : Pass → Moment}
    (ends : ∀ stop, x = .error stop → motive (.ended (.fail stop.state.expander stop.failure)))
    (goes : ∀ p, x = .ok p → motive (go p)) : motive (onward x go) := by
  cases x with
  | ok p => exact goes p rfl
  | error stop => exact ends stop rfl

theorem run_onward {x : Run Pass} {go : Pass → Moment} {close : Run Pass → Run Expander} {next : Pass → Run Pass}
    (failed : ∀ stop, close (.error stop) = .fail stop.state.expander stop.failure)
    (goes : ∀ p, (go p).run ctx = close (next p)) : (onward x go).run ctx = close (x.andThen next) := by
  cases x with
  | ok p => exact goes p
  | error stop => exact (failed stop).symm

theorem settle_finish (ctx : Context) (room passes : Nat) (e : Expander) : settle ctx (below ctx room) (passes + 1) e =
    finish ctx room passes (rewrite ctx (below ctx room) e.program { expander := e.countPass }) := by
  rw [settle]
  cases rewrite ctx (below ctx room) e.program { expander := e.countPass } with
  | error stop => rfl
  | ok rewritten =>
    simp only [finish]
    cases unwrap ctx.settings.maxExpansions rewritten.result with
    | error stop => rfl
    | ok unwrapped => rfl

end Moment

namespace Pending

-- What the waiting pass makes of the outcome of its file.
def splice (pending : Pending) : Run Expander → Run Pass
  | .ok inner =>
    .ok (pending.pass.replaceBy ((pending.pass.expander.absorb inner).addStats inner.stats) inner.program)
  | .error stop => .fail { pending.pass with expander := pending.pass.expander.absorb stop.state } stop.failure

def resume (ctx : Context) (x : Run Expander) (pending : Pending) : Run Expander :=
  Moment.finish ctx pending.room pending.passes
    ((pending.splice x).andThen (rewrite ctx (below ctx pending.room) pending.rest))

end Pending

-- Why an inclusion opens no file.
inductive Barred (ctx : Context) (room : Nat) (p : Pass) (t : Token) (name : String) : Cause → Prop where
  | missing (nowhere : findFile ctx name t.location.file = none) :
      Barred ctx room p t name (.inclusion name .notFound ((searchPaths ctx t.location.file).map (·.text)))
  | circular {path : Path} (found : findFile ctx name t.location.file = some path)
      (open_ : ctx.disk.resolve path ∈ p.expander.chain) : Barred ctx room p t name (.inclusion name .circular [])
  | tooDeep {path : Path} (found : findFile ctx name t.location.file = some path)
      (new : ctx.disk.resolve path ∉ p.expander.chain) (full : room = 0) :
      Barred ctx room p t name (.inclusion name (.tooDeep ctx.settings.maxIncludeDepth) [])
  | unreadable {path : Path} {f : Failure} (found : findFile ctx name t.location.file = some path)
      (new : ctx.disk.resolve path ∉ p.expander.chain) (free : room ≠ 0) (refused : ctx.disk.readText path = .error f) :
      Barred ctx room p t name (.inclusion name (.unreadable f.message) [])

namespace Scene

open Moment

variable {ctx : Context} {m m' : Scene}

inductive Step (ctx : Context) : Scene → Scene → Prop where
  | read {waiting : List Pending} {room : Nat} {e : Expander} {source : List Char} {file : String} :
      Step ctx ⟨waiting, .reading room e source file⟩ ⟨waiting, lexed ctx room (e.read ctx.settings source file)⟩
  | exhausted {waiting : List Pending} {room : Nat} {e : Expander} :
      Step ctx ⟨waiting, .settling room 0 e⟩
        ⟨waiting, .ended (.fail e (.report ⟨.macroMisuse (.noFixedPoint ctx.settings.maxPasses), none, none⟩))⟩
  | begun {waiting : List Pending} {room passes : Nat} {e : Expander} :
      Step ctx ⟨waiting, .settling room (passes + 1) e⟩
        ⟨waiting, .rewriting room passes { expander := e.countPass } e.program⟩
  | kept {waiting : List Pending} {room passes : Nat} {p : Pass} {t : Token} {rest : List Token}
      (noInclusion : ∀ name, t.kind ≠ .inclusion name)
      (noDefinition : ∀ name captured, t.kind ≠ .macroDefinition name captured) :
      Step ctx ⟨waiting, .rewriting room passes p (t :: rest)⟩ ⟨waiting, .rewriting room passes (p.keep t) rest⟩
  | confirmed {waiting : List Pending} {room passes : Nat} {p : Pass} {t : Token} {rest : List Token} {name : String}
      (kind : t.kind = .macroDefinition name true) :
      Step ctx ⟨waiting, .rewriting room passes p (t :: rest)⟩
        ⟨waiting, onward (confirm p t name) fun q => .rewriting room passes q rest⟩
  | bodiless {waiting : List Pending} {room passes : Nat} {p : Pass} {t : Token} {rest : List Token} {name : String}
      {found : Option String} (kind : t.kind = .macroDefinition name false)
      (missing : bodySpan rest = .error (.notBracket found)) :
      Step ctx ⟨waiting, .rewriting room passes p (t :: rest)⟩
        ⟨waiting, .ended (.fail p.expander (.report ⟨.macroMisuse (.noBody name found), some t.location, none⟩))⟩
  | unpaired {waiting : List Pending} {room passes : Nat} {p : Pass} {t : Token} {rest : List Token} {name : String}
      {opener : Token} (kind : t.kind = .macroDefinition name false)
      (missing : bodySpan rest = .error (.unpaired opener)) :
      Step ctx ⟨waiting, .rewriting room passes p (t :: rest)⟩
        ⟨waiting, .ended (.fail p.expander (.unpairedBracket opener.location))⟩
  | captured {waiting : List Pending} {room passes : Nat} {p : Pass} {t : Token} {rest : List Token} {name : String}
      {span : BodySpan} (kind : t.kind = .macroDefinition name false) (found : bodySpan rest = .ok span) :
      Step ctx ⟨waiting, .rewriting room passes p (t :: rest)⟩
        ⟨waiting, onward (capture p t name span) fun q => .rewriting room passes q span.rest⟩
  | barred {waiting : List Pending} {room passes : Nat} {p : Pass} {t : Token} {rest : List Token} {name : String}
      {cause : Cause} (kind : t.kind = .inclusion name) (bar : Barred ctx room p t name cause) :
      Step ctx ⟨waiting, .rewriting room passes p (t :: rest)⟩
        ⟨waiting, .ended (.fail p.expander (.report ⟨cause, some t.location, none⟩))⟩
  | opened {waiting : List Pending} {room passes : Nat} {p : Pass} {t : Token} {rest : List Token} {name : String}
      {path : Path} {source : List Char} (kind : t.kind = .inclusion name)
      (found : findFile ctx name t.location.file = some path) (new : ctx.disk.resolve path ∉ p.expander.chain)
      (stored : ctx.disk.readText path = .ok source) :
      Step ctx ⟨waiting, .rewriting (room + 1) passes p (t :: rest)⟩
        ⟨⟨room + 1, passes, p, t, path, rest⟩ :: waiting,
          .reading room ((p.expander.note (.including path.text t.location)).nested (ctx.disk.resolve path)) source
            path.text⟩
  | turned {waiting : List Pending} {room passes : Nat} {p : Pass} :
      Step ctx ⟨waiting, .rewriting room passes p []⟩
        ⟨waiting, .unwrapping room passes p.changed { expander := p.result } p.result.program⟩
  | unwrapped {waiting : List Pending} {room passes : Nat} {changed : Bool} {p : Pass} {t : Token} {rest : List Token} :
      Step ctx ⟨waiting, .unwrapping room passes changed p (t :: rest)⟩
        ⟨waiting, onward (unwrapToken ctx.settings.maxExpansions p t) fun q => .unwrapping room passes changed q rest⟩
  | again {waiting : List Pending} {room passes : Nat} {changed : Bool} {p : Pass}
      (anything : (changed || p.changed) = true) :
      Step ctx ⟨waiting, .unwrapping room passes changed p []⟩ ⟨waiting, .settling room passes p.result⟩
  | stable {waiting : List Pending} {room passes : Nat} {changed : Bool} {p : Pass}
      (nothing : (changed || p.changed) = false) :
      Step ctx ⟨waiting, .unwrapping room passes changed p []⟩
        ⟨waiting, .ended (.ok (p.result.note (.stable p.result.stats.passes p.result.stats.rewrites)))⟩
  -- The file has been gone through, and is closed again.
  | closed {pending : Pending} {waiting : List Pending} {inner : Expander} :
      Step ctx ⟨pending :: waiting, .ended (.ok inner)⟩
        ⟨waiting, .rewriting pending.room pending.passes
          (pending.pass.replaceBy ((pending.pass.expander.absorb inner).addStats inner.stats) inner.program)
          pending.rest⟩
  | unwound {pending : Pending} {waiting : List Pending} {stop : Stop Expander} :
      Step ctx ⟨pending :: waiting, .ended (.error stop)⟩
        ⟨waiting, .ended (.fail (pending.pass.expander.absorb stop.state) stop.failure)⟩

def Leads (ctx : Context) : Scene → Scene → Prop := Relation.ReflTransGen (Step ctx)

-- How everything ends: what the inclusions under way make of the text at hand, one after the other.
def run (ctx : Context) (m : Scene) : Run Expander := m.waiting.foldl (Pending.resume ctx) (m.moment.run ctx)

theorem splice_barred {room : Nat} {p : Pass} {t : Token} {name : String} {cause : Cause}
    (bar : Barred ctx room p t name cause) : splice ctx (below ctx room) t name p = p.fail t.location cause := by
  unfold Expander.splice
  cases bar with
  | missing nowhere => rw [nowhere]
  | circular found open_ =>
    rw [found]
    exact if_pos open_
  | tooDeep found new full =>
    subst full
    rw [found]
    exact if_neg new
  | unreadable found new free refused =>
    obtain ⟨room, rfl⟩ := Nat.exists_eq_succ_of_ne_zero free
    rw [found]
    simp only [if_neg new, below, refused]

theorem splice_opened {room : Nat} {p : Pass} {t : Token} {name : String} {path : Path} {source : List Char}
    (passes : Nat) (rest : List Token) (found : findFile ctx name t.location.file = some path)
    (new : ctx.disk.resolve path ∉ p.expander.chain) (stored : ctx.disk.readText path = .ok source) :
    splice ctx (below ctx (room + 1)) t name p = Pending.splice ⟨room + 1, passes, p, t, path, rest⟩
      (Moment.run ctx (.reading room ((p.expander.note (.including path.text t.location)).nested (ctx.disk.resolve path))
        source path.text)) := by
  unfold Expander.splice
  rw [found]
  simp only [if_neg new, below, stored, Moment.run]
  cases andThen _ _ <;> rfl

theorem Step.run_eq (step : Step ctx m m') : m.run ctx = m'.run ctx := by
  have same {waiting : List Pending} {now next : Moment} (here : now.run ctx = next.run ctx) :
      (⟨waiting, now⟩ : Scene).run ctx = (⟨waiting, next⟩ : Scene).run ctx :=
    congrArg (fun x => waiting.foldl (Pending.resume ctx) x) here
  cases step with
  | @read waiting room e source file =>
    apply same
    rw [Moment.run]
    cases e.read ctx.settings source file with
    | error stop => rfl
    | ok lexed => exact congrFun (expand_eq ctx room) lexed
  | exhausted => rfl
  | begun => exact same (settle_finish ctx _ _ _)
  | kept noInclusion noDefinition =>
    apply same
    rw [Moment.run, rewrite_keep noInclusion noDefinition]
    rfl
  | confirmed kind =>
    apply same
    rw [Moment.run, rewrite_captured kind]
    exact (run_onward (fun _ => rfl) fun _ => rfl).symm
  | bodiless kind missing =>
    apply same
    rw [Moment.run, rewrite_bodiless kind missing]
    rfl
  | unpaired kind missing =>
    apply same
    rw [Moment.run, rewrite_unpaired kind missing]
    rfl
  | captured kind found =>
    apply same
    rw [Moment.run, rewrite_definition kind found]
    exact (run_onward (fun _ => rfl) fun _ => rfl).symm
  | barred kind bar =>
    apply same
    rw [Moment.run, rewrite_inclusion kind, splice_barred bar]
    rfl
  | @opened waiting room passes p t rest name path source kind found new stored =>
    refine congrArg (fun x => waiting.foldl (Pending.resume ctx) x) ?_
    change finish ctx (room + 1) passes (rewrite ctx (below ctx (room + 1)) (t :: rest) p) = _
    rw [rewrite_inclusion kind, splice_opened passes rest found new stored]
    rfl
  | turned =>
    apply same
    rw [Moment.run, rewrite, Moment.run, ← unwrap_eq]
    rfl
  | unwrapped =>
    apply same
    rw [Moment.run, each_cons]
    exact (run_onward (fun _ => rfl) fun _ => rfl).symm
  | again anything => exact same (if_pos anything)
  | stable nothing => exact same (if_neg (by simp [nothing]))
  | closed => rfl
  | unwound => rfl

theorem Leads.run_eq (leads : Leads ctx m m') : m.run ctx = m'.run ctx := by
  induction leads with
  | refl => rfl
  | tail _ step ih => exact ih.trans step.run_eq

theorem inclusion_cases (ctx : Context) (room : Nat) (p : Pass) (t : Token) (name : String) :
    (∃ cause, Barred ctx room p t name cause) ∨ ∃ path source fewer, room = fewer + 1 ∧
      findFile ctx name t.location.file = some path ∧ ctx.disk.resolve path ∉ p.expander.chain ∧
        ctx.disk.readText path = .ok source := by
  cases found : findFile ctx name t.location.file with
  | none => exact .inl ⟨_, .missing found⟩
  | some path =>
    by_cases open_ : ctx.disk.resolve path ∈ p.expander.chain
    · exact .inl ⟨_, .circular found open_⟩
    · cases room with
      | zero => exact .inl ⟨_, .tooDeep found open_ rfl⟩
      | succ fewer =>
        cases stored : ctx.disk.readText path with
        | error f => exact .inl ⟨_, .unreadable found open_ (Nat.succ_ne_zero fewer) stored⟩
        | ok source => exact .inr ⟨path, source, fewer, rfl, rfl, open_, stored⟩

-- Only at the end of the outermost text there is nothing left to do.
theorem progress (ctx : Context) (m : Scene) : (∃ x, m = ⟨[], .ended x⟩) ∨ ∃ m', Step ctx m m' := by
  obtain ⟨waiting, moment⟩ := m
  cases moment with
  | reading room e source file => exact .inr ⟨_, .read⟩
  | settling room passes e =>
    cases passes with
    | zero => exact .inr ⟨_, .exhausted⟩
    | succ passes => exact .inr ⟨_, .begun⟩
  | rewriting room passes p ahead =>
    cases ahead with
    | nil => exact .inr ⟨_, .turned⟩
    | cons t rest =>
      by_cases includes : ∃ name, t.kind = .inclusion name
      · obtain ⟨name, kind⟩ := includes
        rcases inclusion_cases ctx room p t name with ⟨cause, bar⟩ | ⟨path, source, fewer, rfl, found, new, stored⟩
        · exact .inr ⟨_, .barred kind bar⟩
        · exact .inr ⟨_, .opened kind found new stored⟩
      · by_cases defines : ∃ name captured, t.kind = .macroDefinition name captured
        · obtain ⟨name, captured, kind⟩ := defines
          cases captured with
          | true => exact .inr ⟨_, .confirmed kind⟩
          | false =>
            cases found : bodySpan rest with
            | ok span => exact .inr ⟨_, .captured kind found⟩
            | error fault =>
              cases fault with
              | notBracket other => exact .inr ⟨_, .bodiless kind found⟩
              | unpaired opener => exact .inr ⟨_, .unpaired kind found⟩
        · exact .inr ⟨_, .kept (fun name kind => includes ⟨name, kind⟩)
            fun name captured kind => defines ⟨name, captured, kind⟩⟩
  | unwrapping room passes changed p ahead =>
    cases ahead with
    | cons t rest => exact .inr ⟨_, .unwrapped⟩
    | nil =>
      cases anything : changed || p.changed with
      | true => exact .inr ⟨_, .again anything⟩
      | false => exact .inr ⟨_, .stable anything⟩
  | ended x =>
    cases waiting with
    | nil => exact .inl ⟨x, rfl⟩
    | cons pending waiting =>
      cases x with
      | ok inner => exact .inr ⟨_, .closed⟩
      | error stop => exact .inr ⟨_, .unwound⟩

end Scene

-- Opening a file takes room, a further pass takes one of the passes, and within the halves of a pass the tokens ahead
-- get fewer. What has ended is left to the text that waits for it.
def Moment.rank (ctx : Context) : Moment → Nat × Nat × Nat × Nat
  | .reading room _ _ _ => (room, ctx.settings.maxPasses.toNat, 1, 0)
  | .settling room passes _ => (room, passes, 0, 0)
  | .rewriting room passes _ ahead => (room, passes, 2, ahead.length)
  | .unwrapping room passes _ _ ahead => (room, passes, 1, ahead.length)
  | .ended _ => (0, 0, 0, 0)

namespace Scene

open Moment

variable {ctx : Context} {m m' : Scene}

abbrev Lower : Nat × Nat × Nat × Nat → Nat × Nat × Nat × Nat → Prop :=
  Prod.Lex (· < ·) (Prod.Lex (· < ·) (Prod.Lex (· < ·) (· < ·)))

theorem lower_wellFounded : WellFounded Lower := by
  have lt : WellFounded fun m n : Nat => m < n := Nat.lt_wfRel.wf
  exact lt.prod_lex (lt.prod_lex (lt.prod_lex lt))

theorem lower_ahead {room passes half ahead more : Nat} (fewer : ahead < more) :
    Lower (room, passes, half, ahead) (room, passes, half, more) := .right _ (.right _ (.right _ fewer))

theorem lower_half {room passes half later ahead more : Nat} (fewer : later < half) :
    Lower (room, passes, later, ahead) (room, passes, half, more) := .right _ (.right _ (.left _ _ fewer))

-- A text comes to its end if the texts that wait for it do from there.
theorem accessible {waiting : List Pending}
    (ends : ∀ x, Acc (fun later earlier => Step ctx earlier later) ⟨waiting, .ended x⟩) (moment : Moment) :
    Acc (fun later earlier => Step ctx earlier later) ⟨waiting, moment⟩ := by
  induction rank : moment.rank ctx using lower_wellFounded.induction generalizing waiting moment with
  | _ rank ih =>
    subst rank
    refine Acc.intro _ fun next step => ?_
    cases step with
    | read =>
      exact lexed_cases (fun _ _ => ends _) fun _ _ => ih _ (lower_half Nat.zero_lt_one) ends _ rfl
    | exhausted => exact ends _
    | begun => exact ih _ (.right _ (.left _ _ (Nat.lt_succ_self _))) ends _ rfl
    | kept => exact ih _ (lower_ahead (Nat.lt_succ_self _)) ends _ rfl
    | confirmed => exact onward_cases (fun _ _ => ends _) fun _ _ => ih _ (lower_ahead (Nat.lt_succ_self _)) ends _ rfl
    | bodiless => exact ends _
    | unpaired => exact ends _
    | captured kind found =>
      have fewer := Nat.lt_succ_of_lt (bodySpan_rest_lt found)
      exact onward_cases (fun _ _ => ends _) fun _ _ => ih _ (lower_ahead fewer) ends _ rfl
    | barred => exact ends _
    | opened =>
      refine ih _ (.left _ _ (Nat.lt_succ_self _)) (fun x => Acc.intro _ fun next step => ?_) _ rfl
      cases step with
      | closed => exact ih _ (lower_ahead (Nat.lt_succ_self _)) ends _ rfl
      | unwound => exact ends _
    | turned => exact ih _ (lower_half (Nat.lt_succ_self 1)) ends _ rfl
    | unwrapped => exact onward_cases (fun _ _ => ends _) fun _ _ => ih _ (lower_ahead (Nat.lt_succ_self _)) ends _ rfl
    | again => exact ih _ (lower_half Nat.zero_lt_one) ends _ rfl
    | stable => exact ends _
    | closed => exact (ends _).inv .closed
    | unwound => exact (ends _).inv .unwound

theorem step_wellFounded (ctx : Context) : WellFounded fun later earlier => Step ctx earlier later := by
  have ended (waiting : List Pending) (x : Run Expander) :
      Acc (fun later earlier => Step ctx earlier later) ⟨waiting, .ended x⟩ := by
    induction waiting generalizing x with
    | nil => exact Acc.intro _ fun next step => nomatch step
    | cons pending waiting ih =>
      refine Acc.intro _ fun next step => ?_
      cases step with
      | closed => exact accessible ih _
      | unwound => exact ih _
  exact ⟨fun m => accessible (ended m.waiting) m.moment⟩

-- From every scene on, the steps lead to the outcome.
theorem leads_run (ctx : Context) (m : Scene) : Leads ctx m ⟨[], .ended (m.run ctx)⟩ := by
  induction m using (step_wellFounded ctx).induction with
  | _ m ih =>
    rcases progress ctx m with ⟨x, rfl⟩ | ⟨next, step⟩
    · exact .refl
    · rw [step.run_eq]
      exact .head step (ih next step)

-- What every step keeps holds at the end.
theorem Leads.keeps {motive : Scene → Prop} (kept : ∀ m m', Step ctx m m' → motive m → motive m')
    (leads : Leads ctx m m') (start : motive m) : motive m' := by
  induction leads with
  | refl => exact start
  | tail _ step ih => exact kept _ _ step ih

theorem run_keeps {motive : Scene → Prop} (kept : ∀ m m', Step ctx m m' → motive m → motive m') (m : Scene)
    (start : motive m) : motive ⟨[], .ended (m.run ctx)⟩ := (leads_run ctx m).keeps kept start

-- The beginning of a text with nothing around it.
def begin (ctx : Context) (e : Expander) (source : List Char) (file : String) : Scene :=
  ⟨[], .reading (room ctx e) e source file⟩

theorem run_begin (ctx : Context) (e : Expander) (source : List Char) (file : String) :
    (begin ctx e source file).run ctx = processSource ctx source file e := by
  change (e.read ctx.settings source file).andThen (expand ctx (room ctx e)) = _
  unfold processSource
  rw [read_eq]
  cases (e.reader ctx.settings source file).run <;> rfl

theorem run_process (ctx : Context) (e : Expander) :
    (⟨[], .settling (room ctx e) ctx.settings.maxPasses.toNat e⟩ : Scene).run ctx = process ctx e :=
  (congrFun (expand_eq ctx (room ctx e)) e).symm

theorem run_failed (ctx : Context) (waiting : List Pending) (stop : Stop Expander) :
    ((⟨waiting, .ended (.error stop)⟩ : Scene).run ctx).failure? = some stop.failure := by
  induction waiting generalizing stop with
  | nil => rfl
  | cons pending waiting ih =>
    rw [Step.unwound.run_eq]
    exact ih _

end Scene

-- The scene in which an input is first read. A file that cannot be read has none; one that can is open from then on.
def Input.opening (ctx : Context) (journal : Journal) : Input → Option Scene
  | .text source file => some (Scene.begin ctx { journal } source file)
  | .stored path => (ctx.disk.readText path).toOption.map fun source =>
    Scene.begin ctx { journal, chain := [ctx.disk.resolve path] } source path.text

theorem Input.opening_some {ctx : Context} {journal : Journal} {input : Input} {start : Scene}
    (begins : input.opening ctx journal = some start) : ∃ chain source file, input.Gives ctx source file ∧
      start = Scene.begin ctx { journal, chain } source file ∧ input.expand ctx { journal } = start.run ctx := by
  cases input with
  | text source file =>
    cases begins
    exact ⟨[], source, file, .inl rfl, rfl, (Scene.run_begin ctx _ source file).symm⟩
  | stored path =>
    obtain ⟨source, stored, rfl⟩ := Option.map_eq_some_iff.mp begins
    have text := eq_ok_of_toOption stored
    refine ⟨_, source, path.text, .inr ⟨path, rfl, text, rfl⟩, rfl, ?_⟩
    rw [Scene.run_begin]
    simp [expand, processFile, text]

theorem Input.opening_none {ctx : Context} {journal : Journal} {input : Input} (none : input.opening ctx journal = none) :
    ∃ path f, ctx.disk.readText path = .error f ∧ (input.expand ctx { journal }).failure? = some f := by
  cases input with
  | text source file => cases none
  | stored path =>
    cases stored : ctx.disk.readText path with
    | ok source => simp [opening, stored, Except.toOption] at none
    | error f => exact ⟨path, f, stored, by simp [expand, processFile, stored, Run.failure?, Run.fail]⟩

end RuneAsm
