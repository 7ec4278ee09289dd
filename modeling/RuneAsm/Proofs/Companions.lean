import Mathlib
import RuneAsm.Proofs.Alike
import RuneAsm.Proofs.Moments

namespace RuneAsm

open Run

-- Two expansions side by side, in two surroundings. They may differ in what they have noted and in the files that they
-- hold open, and the second need not follow the first into a failure that is excused. Who compares two ways to expand a
-- text says how they may differ and shows that texts are read alike; that they stay alike is shown here.
structure Likeness where
  noted : Journal → Journal → Prop
  opened : List Place → List Place → Prop
  excused : Failure → Prop
  note {journal journal' : Journal} (event : Event) : noted journal journal' → noted (event :: journal) (event :: journal')
  nest {chain chain' : List Place} (place : Place) : opened chain chain' → opened (chain ++ [place]) (chain' ++ [place])
  closed {chain chain' : List Place} {place : Place} : opened chain chain' → place ∉ chain → place ∉ chain'
  -- The second may have a file closed that is open in the first only if includes may fail.
  circular {chain chain' : List Place} {place : Place} : opened chain chain' → place ∈ chain →
    place ∈ chain' ∨ ∀ f, f.Within [.inclusion] → excused f

theorem Journal.cons_congr {journal journal' : Journal} (event : Event) (same : journal = journal') :
    event :: journal = event :: journal' := congrArg (event :: ·) same

namespace Likeness

-- The same files are open on both sides.
def level (noted : Journal → Journal → Prop) (excused : Failure → Prop)
    (note : ∀ {journal journal' : Journal} (event : Event),
      noted journal journal' → noted (event :: journal) (event :: journal')) : Likeness where
  noted := noted
  opened := Eq
  excused := excused
  note := note
  nest place same := congrArg (· ++ [place]) same
  closed same new := same ▸ new
  circular same found := .inl (same ▸ found)

variable {l : Likeness} {e e' : Expander} {p p' : Pass}

def Like (l : Likeness) (e e' : Expander) : Prop :=
  ∃ journal chain, l.noted e.journal journal ∧ l.opened e.chain chain ∧ e' = { e with journal, chain }

def PassLike (l : Likeness) (p p' : Pass) : Prop :=
  ∃ journal chain, l.noted p.expander.journal journal ∧ l.opened p.expander.chain chain ∧
    p' = { p with expander.journal := journal, expander.chain := chain }

-- Room for more files helps only where includes may fail in the first expansion.
def Roomier (l : Likeness) (room room' : Nat) : Prop :=
  room = room' ∨ room ≤ room' ∧ ∀ f, f.Within [.inclusion] → l.excused f

def Patienter (l : Likeness) (passes passes' : Nat) : Prop := passes = passes' ∨ passes ≤ passes' ∧ ∀ f, l.excused f

theorem exists_pred {excuse : Prop} {n n' : Nat} (more : n + 1 = n' ∨ n + 1 ≤ n' ∧ excuse) :
    ∃ fewer, n' = fewer + 1 ∧ (n = fewer ∨ n ≤ fewer ∧ excuse) := by
  have enough : n + 1 ≤ n' := more.elim Nat.le_of_eq And.left
  obtain ⟨fewer, rfl⟩ := Nat.exists_eq_add_of_le' (Nat.le_trans (Nat.succ_pos n) enough)
  exact ⟨fewer, rfl, more.imp Nat.succ.inj fun most => ⟨Nat.le_of_succ_le_succ most.1, most.2⟩⟩

-- Surroundings that make no other difference: the same files, found in the same places, and the same limits unless all
-- failures are excused.
structure Suits (l : Likeness) (ctx ctx' : Context) : Prop where
  disk : ctx'.disk = ctx.disk
  includePaths : ctx'.settings.includePaths = ctx.settings.includePaths
  reads {e e' : Expander} (source : List Char) (file : String) : l.Like e e' →
    Mirrors l.excused l.Like (e.read ctx.settings source file) (e'.read ctx'.settings source file)
  maxPasses : ctx.settings.maxPasses ≤ ctx'.settings.maxPasses
  maxIncludeDepth : ctx.settings.maxIncludeDepth ≤ ctx'.settings.maxIncludeDepth
  maxExpansions : ctx.settings.maxExpansions ≤ ctx'.settings.maxExpansions
  limits : (ctx'.settings.maxPasses = ctx.settings.maxPasses ∧
    ctx'.settings.maxIncludeDepth = ctx.settings.maxIncludeDepth ∧
    ctx'.settings.maxExpansions = ctx.settings.maxExpansions) ∨ ∀ f, l.excused f

namespace PassLike

theorem expander (like : l.PassLike p p') : l.Like p.expander p'.expander := by
  obtain ⟨journal, chain, noted, opened, rfl⟩ := like
  exact ⟨journal, chain, noted, opened, rfl⟩

theorem result (like : l.PassLike p p') : l.Like p.result p'.result := by
  obtain ⟨journal, chain, noted, opened, rfl⟩ := like
  exact ⟨journal, chain, noted, opened, rfl⟩

theorem keep (like : l.PassLike p p') (t : Token) : l.PassLike (p.keep t) (p'.keep t) := by
  obtain ⟨journal, chain, noted, opened, rfl⟩ := like
  exact ⟨journal, chain, noted, opened, rfl⟩

theorem changed (like : l.PassLike p p') : p'.changed = p.changed := by
  obtain ⟨journal, chain, noted, opened, rfl⟩ := like
  rfl

end PassLike

theorem Like.pass (like : l.Like e e') : l.PassLike { expander := e } { expander := e' } := by
  obtain ⟨journal, chain, noted, opened, rfl⟩ := like
  exact ⟨journal, chain, noted, opened, rfl⟩

theorem Like.program (like : l.Like e e') : e'.program = e.program := by
  obtain ⟨journal, chain, noted, opened, rfl⟩ := like
  rfl

theorem Like.countPass (like : l.Like e e') : l.Like e.countPass e'.countPass := by
  obtain ⟨journal, chain, noted, opened, rfl⟩ := like
  exact ⟨journal, chain, noted, opened, rfl⟩

theorem Like.note (like : l.Like e e') (event : Event) : l.Like (e.note event) (e'.note event) := by
  obtain ⟨journal, chain, noted, opened, rfl⟩ := like
  exact ⟨_, chain, l.note event noted, opened, rfl⟩

theorem Like.nested (like : l.Like e e') (place : Place) : l.Like (e.nested place) (e'.nested place) := by
  obtain ⟨journal, chain, noted, opened, rfl⟩ := like
  exact ⟨journal, _, noted, l.nest place opened, rfl⟩

-- What an included file has noted stays, and it is closed again.
theorem Like.absorb {inner inner' : Expander} (like : l.Like e e') (inside : l.Like inner inner') :
    l.Like (e.absorb inner) (e'.absorb inner') := by
  obtain ⟨_, chain, _, opened, rfl⟩ := like
  obtain ⟨journal, _, noted, _, rfl⟩ := inside
  exact ⟨journal, chain, noted, opened, rfl⟩

end Likeness

namespace Expander

variable {l : Likeness} {e e' : Expander} {p p' : Pass} {t : Token} {name : String} {ctx ctx' : Context}

-- Where nothing else has been noted, a text is read in the same way.
theorem read_like (noted : ∀ journal journal', l.noted journal journal' ↔ journal' = journal)
    (warnings : ctx'.settings.commentWarnings = ctx.settings.commentWarnings) (source : List Char) (file : String)
    (like : l.Like e e') : Mirrors l.excused l.Like (e.read ctx.settings source file) (e'.read ctx'.settings source file) := by
  obtain ⟨journal, chain, same, opened, rfl⟩ := like
  obtain rfl := (noted _ _).mp same
  have readers : reader ctx'.settings source file { e with chain } = e.reader ctx.settings source file := by
    unfold reader
    rw [warnings]
  rw [read_eq, read_eq, readers]
  cases (e.reader ctx.settings source file).run with
  | ok r => exact mirrors_ok ⟨_, chain, (noted _ _).mpr rfl, opened, rfl⟩
  | error stop => exact mirrors_fail ⟨_, chain, (noted _ _).mpr rfl, opened, rfl⟩ stop.failure

theorem capture_like (span : BodySpan) (like : l.PassLike p p') :
    Mirrors l.excused l.PassLike (capture p t name span) (capture p' t name span) := by
  obtain ⟨journal, chain, noted, opened, rfl⟩ := like
  unfold capture
  dsimp only
  split
  · exact mirrors_fail ⟨journal, chain, noted, opened, rfl⟩ _
  · exact mirrors_ok ⟨_, chain, l.note _ noted, opened, rfl⟩

theorem confirm_like (like : l.PassLike p p') : Mirrors l.excused l.PassLike (confirm p t name) (confirm p' t name) := by
  obtain ⟨journal, chain, noted, opened, rfl⟩ := like
  unfold confirm
  dsimp only
  split
  · exact mirrors_fail ⟨journal, chain, noted, opened, rfl⟩ _
  · exact mirrors_ok ⟨journal, chain, noted, opened, rfl⟩

def CopyingLike (l : Likeness) (c c' : Copying) : Prop :=
  ∃ journal chain, l.noted c.expander.journal journal ∧ l.opened c.expander.chain chain ∧
    c' = { c with expander.journal := journal, expander.chain := chain }

theorem renameCloser_like {c c' : Copying} (like : CopyingLike l c c') (t : Token) :
    Mirrors l.excused (CopyingLike l) (renameCloser c t) (renameCloser c' t) := by
  obtain ⟨journal, chain, noted, opened, rfl⟩ := like
  unfold renameCloser
  split
  · dsimp only
    split
    · exact mirrors_ok ⟨_, chain, l.note _ noted, opened, rfl⟩
    · exact mirrors_fail ⟨journal, chain, noted, opened, rfl⟩ _
  · exact mirrors_ok ⟨journal, chain, noted, opened, rfl⟩

theorem expandMacro_like (m : Macro) (like : l.PassLike p p') :
    Mirrors l.excused l.PassLike (expandMacro m t p) (expandMacro m t p') := by
  obtain ⟨journal, chain, noted, opened, rfl⟩ := like
  have copying : CopyingLike l ⟨p.expander, []⟩ ⟨{ p.expander with journal, chain }, []⟩ :=
    ⟨journal, chain, noted, opened, rfl⟩
  have copied : Mirrors l.excused (CopyingLike l) (Run.each renameCloser ⟨p.expander, []⟩ m.body)
      (Run.each renameCloser ⟨{ p.expander with journal, chain }, []⟩ m.body) :=
    mirrors_each (fun _ _ t _ like => renameCloser_like like t) copying
  unfold expandMacro
  cases ran : Run.each renameCloser ⟨p.expander, []⟩ m.body with
  | ok done =>
    obtain ⟨_, ran', noting, inside, noted, opened, rfl⟩ := copied.ok ran
    rw [ran']
    exact mirrors_ok ⟨_, inside, l.note _ noted, opened, rfl⟩
  | error stop =>
    rcases copied.error ran with excuse | ⟨_, ran', noting, inside, noted, opened, rfl⟩
    · exact mirrors_excused excuse
    · rw [ran']
      exact mirrors_fail ⟨noting, inside, noted, opened, rfl⟩ stop.failure

theorem unwrapToken_like (suits : l.Suits ctx ctx') (like : l.PassLike p p') (t : Token) :
    Mirrors l.excused l.PassLike (unwrapToken ctx.settings.maxExpansions p t)
      (unwrapToken ctx'.settings.maxExpansions p' t) := by
  have same : p'.expander.macros = p.expander.macros ∧ p'.expander.stats = p.expander.stats := by
    obtain ⟨journal, chain, noted, opened, rfl⟩ := like
    exact ⟨rfl, rfl⟩
  unfold unwrapToken
  rw [same.1, same.2]
  split
  · exact mirrors_ok (like.keep t)
  · rename_i m _
    split
    · rename_i reached
      rcases suits.limits with ⟨_, _, limit⟩ | excuse
      · rw [limit, if_pos reached]
        exact mirrors_fail like _
      · exact mirrors_excused (excuse _)
    · rename_i allowed
      have still : ¬ ctx'.settings.maxExpansions ≤ p.expander.stats.expansions :=
        fun reached => allowed (Int.le_trans suits.maxExpansions reached)
      rw [if_neg still]
      exact expandMacro_like m like

end Expander

namespace Likeness

variable {l : Likeness} {ctx ctx' : Context}

structure PendingLike (l : Likeness) (pending pending' : Pending) : Prop where
  room : l.Roomier pending.room pending'.room
  passes : l.Patienter pending.passes pending'.passes
  pass : l.PassLike pending.pass pending'.pass
  rest : pending'.rest = pending.rest

theorem PendingLike.splice {pending pending' : Pending} {inner inner' : Expander} (like : l.PendingLike pending pending')
    (inside : l.Like inner inner') : l.PassLike
      (pending.pass.replaceBy ((pending.pass.expander.absorb inner).addStats inner.stats) inner.program)
      (pending'.pass.replaceBy ((pending'.pass.expander.absorb inner').addStats inner'.stats) inner'.program) := by
  obtain ⟨journal, _, noted, _, rfl⟩ := inside
  obtain ⟨_, chain, _, opened, same⟩ := like.pass
  rw [same]
  exact ⟨journal, chain, noted, opened, rfl⟩

inductive MomentLike (l : Likeness) : Moment → Moment → Prop where
  | reading {room room' : Nat} {e e' : Expander} {source : List Char} {file : String} (roomier : l.Roomier room room')
      (like : l.Like e e') : MomentLike l (.reading room e source file) (.reading room' e' source file)
  | settling {room room' passes passes' : Nat} {e e' : Expander} (roomier : l.Roomier room room')
      (patienter : l.Patienter passes passes') (like : l.Like e e') :
      MomentLike l (.settling room passes e) (.settling room' passes' e')
  | rewriting {room room' passes passes' : Nat} {p p' : Pass} {ahead : List Token} (roomier : l.Roomier room room')
      (patienter : l.Patienter passes passes') (like : l.PassLike p p') :
      MomentLike l (.rewriting room passes p ahead) (.rewriting room' passes' p' ahead)
  | unwrapping {room room' passes passes' : Nat} {changed : Bool} {p p' : Pass} {ahead : List Token}
      (roomier : l.Roomier room room') (patienter : l.Patienter passes passes') (like : l.PassLike p p') :
      MomentLike l (.unwrapping room passes changed p ahead) (.unwrapping room' passes' changed p' ahead)
  | ended {e e' : Expander} (like : l.Like e e') : MomentLike l (.ended (.ok e)) (.ended (.ok e'))
  | failed {e e' : Expander} {f : Failure} (like : l.Like e e') :
      MomentLike l (.ended (.fail e f)) (.ended (.fail e' f))

structure SceneLike (l : Likeness) (m m' : Scene) : Prop where
  waiting : List.Forall₂ l.PendingLike m.waiting m'.waiting
  moment : l.MomentLike m.moment m'.moment

-- The first has stopped where the second need not.
def Excused (l : Likeness) (m : Scene) : Prop := ∃ stop, m.moment = .ended (.error stop) ∧ l.excused stop.failure

abbrev Matched (l : Likeness) (next : Scene) (next' : Scene) : Prop := l.Excused next ∨ l.SceneLike next next'

theorem matched_lexed (suits : l.Suits ctx ctx') {waiting waiting' : List Pending} {room room' : Nat}
    {x x' : Run Expander} (around : List.Forall₂ l.PendingLike waiting waiting') (roomier : l.Roomier room room')
    (mirrors : Mirrors l.excused l.Like x x') :
    l.Matched ⟨waiting, Moment.lexed ctx room x⟩ ⟨waiting', Moment.lexed ctx' room' x'⟩ := by
  cases x with
  | ok e =>
    obtain ⟨e', rfl, like⟩ := mirrors
    refine .inr ⟨around, .settling roomier ?_ like⟩
    rcases suits.limits with ⟨passes, _⟩ | excuse
    · exact .inl (congrArg Int.toNat passes.symm)
    · exact .inr ⟨Int.toNat_le_toNat suits.maxPasses, excuse⟩
  | error stop =>
    rcases mirrors with excuse | ⟨e', rfl, like⟩
    · exact .inl ⟨stop, rfl, excuse⟩
    · exact .inr ⟨around, .failed like⟩

theorem matched_onward {waiting waiting' : List Pending} {x x' : Run Pass} {go go' : Pass → Moment}
    (around : List.Forall₂ l.PendingLike waiting waiting') (mirrors : Mirrors l.excused l.PassLike x x')
    (goes : ∀ q q', l.PassLike q q' → l.MomentLike (go q) (go' q')) :
    l.Matched ⟨waiting, Moment.onward x go⟩ ⟨waiting', Moment.onward x' go'⟩ := by
  cases x with
  | ok q =>
    obtain ⟨q', rfl, like⟩ := mirrors
    exact .inr ⟨around, goes q q' like⟩
  | error stop =>
    rcases mirrors with excuse | ⟨q', rfl, like⟩
    · exact .inl ⟨_, rfl, excuse⟩
    · exact .inr ⟨around, .failed like.expander⟩

theorem Suits.findFile (suits : l.Suits ctx ctx') (name file : String) :
    Expander.findFile ctx' name file = Expander.findFile ctx name file := by
  unfold Expander.findFile Expander.searchPaths
  rw [suits.includePaths, suits.disk]

theorem barred_inclusion {room : Nat} {p : Pass} {t : Token} {name : String} {cause : Cause}
    (bar : Barred ctx room p t name cause) : Failure.Within [.inclusion] (.report ⟨cause, some t.location, none⟩) := by
  cases bar <;> exact ⟨_, rfl, List.mem_cons_self⟩

-- What bars the first expansion from a file bars the second too, or is excused.
theorem Suits.barred (suits : l.Suits ctx ctx') {room room' : Nat} {p p' : Pass} {t : Token} {name : String} {cause : Cause}
    (roomier : l.Roomier room room') (like : l.PassLike p p') (bar : Barred ctx room p t name cause) :
    l.excused (.report ⟨cause, some t.location, none⟩) ∨ Barred ctx' room' p' t name cause := by
  have within := barred_inclusion bar
  obtain ⟨journal, chain, noted, opened, same⟩ := like.expander
  have chains : p'.expander.chain = chain := by rw [same]
  cases bar with
  | missing nowhere =>
    have searched : Expander.searchPaths ctx t.location.file = Expander.searchPaths ctx' t.location.file := by
      unfold Expander.searchPaths
      rw [suits.includePaths, suits.disk]
    rw [searched]
    exact .inr (.missing ((suits.findFile name t.location.file).trans nowhere))
  | circular found open_ =>
    rcases l.circular opened open_ with still | excuse
    · exact .inr (.circular ((suits.findFile name t.location.file).trans found) (by rw [suits.disk, chains]; exact still))
    · exact .inl (excuse _ within)
  | tooDeep found new full =>
    rcases suits.limits with ⟨_, depth, _⟩ | excuse
    · rcases roomier with equal | ⟨_, excuse⟩
      · rw [← depth]
        refine .inr (.tooDeep ((suits.findFile name t.location.file).trans found) ?_ (equal ▸ full))
        rw [suits.disk, chains]
        exact l.closed opened new
      · exact .inl (excuse _ within)
    · exact .inl (excuse _)
  | unreadable found new free refused =>
    refine .inr (.unreadable ((suits.findFile name t.location.file).trans found) ?_ ?_ (by rw [suits.disk]; exact refused))
    · rw [suits.disk, chains]
      exact l.closed opened new
    · rcases roomier with rfl | ⟨more, _⟩
      · exact free
      · omega

end Likeness

namespace Scene

variable {l : Likeness} {ctx ctx' : Context} {m next m' : Scene}

theorem Step.like (suits : l.Suits ctx ctx') (step : Step ctx m next) (like : l.SceneLike m m') :
    l.Excused next ∨ ∃ next', Step ctx' m' next' ∧ l.SceneLike next next' := by
  -- Where both do the same, it is left to say how their new states correspond.
  have along {next' : Scene} (stepped : Step ctx' m' next') (matched : l.Matched next next') :
      l.Excused next ∨ ∃ next', Step ctx' m' next' ∧ l.SceneLike next next' :=
    matched.imp_right fun reached => ⟨next', stepped, reached⟩
  obtain ⟨around, moment⟩ := like
  obtain ⟨waiting', _⟩ := m'
  cases step with
  | read =>
    cases moment with
    | reading roomier like => exact along .read (l.matched_lexed suits around roomier (suits.reads _ _ like))
  | exhausted =>
    cases moment with
    | settling roomier patienter like =>
      rcases suits.limits with ⟨limit, _⟩ | excuse
      · rcases patienter with rfl | ⟨_, excuse⟩
        · refine along .exhausted (.inr ⟨around, ?_⟩)
          rw [limit]
          exact .failed like
        · exact .inl ⟨_, rfl, excuse _⟩
      · exact .inl ⟨_, rfl, excuse _⟩
  | begun =>
    cases moment with
    | settling roomier patienter like =>
      obtain ⟨fewer, rfl, patient⟩ := Likeness.exists_pred patienter
      refine along .begun (.inr ⟨around, ?_⟩)
      rw [like.program]
      exact .rewriting roomier patient like.countPass.pass
  | kept noInclusion noDefinition =>
    cases moment with
    | rewriting roomier patienter like =>
      exact along (.kept noInclusion noDefinition) (.inr ⟨around, .rewriting roomier patienter (like.keep _)⟩)
  | confirmed kind =>
    cases moment with
    | rewriting roomier patienter like =>
      exact along (.confirmed kind) (l.matched_onward around (Expander.confirm_like like) fun _ _ like =>
        .rewriting roomier patienter like)
  | bodiless kind missing =>
    cases moment with
    | rewriting roomier patienter like => exact along (.bodiless kind missing) (.inr ⟨around, .failed like.expander⟩)
  | unpaired kind missing =>
    cases moment with
    | rewriting roomier patienter like => exact along (.unpaired kind missing) (.inr ⟨around, .failed like.expander⟩)
  | captured kind found =>
    cases moment with
    | rewriting roomier patienter like =>
      exact along (.captured kind found) (l.matched_onward around (Expander.capture_like _ like) fun _ _ like =>
        .rewriting roomier patienter like)
  | barred kind bar =>
    cases moment with
    | rewriting roomier patienter like =>
      rcases suits.barred roomier like bar with excuse | bar'
      · exact .inl ⟨_, rfl, excuse⟩
      · exact along (.barred kind bar') (.inr ⟨around, .failed like.expander⟩)
  | @opened _ room passes p t rest name path source kind found new stored =>
    cases moment with
    | @rewriting _ room' _ passes' _ p' _ roomier patienter like =>
      obtain ⟨fewer, rfl, spare⟩ := Likeness.exists_pred roomier
      have new' : ctx'.disk.resolve path ∉ p'.expander.chain := by
        obtain ⟨_, _, _, opened, same⟩ := like.expander
        rw [suits.disk, same]
        exact l.closed opened new
      refine along (.opened kind ((suits.findFile name t.location.file).trans found) new' (by rw [suits.disk]; exact stored))
        (.inr ⟨.cons ⟨roomier, patienter, like, rfl⟩ around, .reading spare ?_⟩)
      rw [suits.disk]
      exact (like.expander.note _).nested _
  | turned =>
    cases moment with
    | rewriting roomier patienter like =>
      refine along .turned (.inr ⟨around, ?_⟩)
      rw [like.changed, like.result.program]
      exact .unwrapping roomier patienter like.result.pass
  | unwrapped =>
    cases moment with
    | unwrapping roomier patienter like =>
      exact along .unwrapped (l.matched_onward around (Expander.unwrapToken_like suits like _) fun _ _ like =>
        .unwrapping roomier patienter like)
  | again anything =>
    cases moment with
    | unwrapping roomier patienter like =>
      exact along (.again (by rw [like.changed]; exact anything))
        (.inr ⟨around, .settling roomier patienter like.result⟩)
  | stable nothing =>
    cases moment with
    | unwrapping roomier patienter like =>
      refine along (.stable (by rw [like.changed]; exact nothing)) (.inr ⟨around, .ended ?_⟩)
      obtain ⟨journal, chain, noted, opened, rfl⟩ := like
      exact ⟨_, chain, l.note _ noted, opened, rfl⟩
  | closed =>
    cases moment with
    | ended inner =>
      cases around with
      | cons first around =>
        refine along .closed (.inr ⟨around, ?_⟩)
        rw [first.rest]
        exact .rewriting first.room first.passes (first.splice inner)
  | unwound =>
    cases moment with
    | failed inner =>
      cases around with
      | cons first around =>
        exact along .unwound (.inr ⟨around, .failed (first.pass.expander.absorb inner)⟩)

-- The second expansion ends as the first one does, unless that fails with an excuse.
theorem run_like (suits : l.Suits ctx ctx') (like : l.SceneLike m m') :
    Mirrors l.excused l.Like (m.run ctx) (m'.run ctx') := by
  induction m using (step_wellFounded ctx).induction generalizing m' with
  | _ m ih =>
    rcases progress ctx m with ⟨x, rfl⟩ | ⟨next, step⟩
    · obtain ⟨around, moment⟩ := like
      obtain ⟨waiting', _⟩ := m'
      cases around
      cases moment with
      | ended like => exact mirrors_ok like
      | failed like => exact mirrors_fail like _
    · rw [step.run_eq]
      rcases step.like suits like with ⟨stop, ended, excuse⟩ | ⟨next', step', reached⟩
      · have failed := run_failed ctx next.waiting stop
        rw [← ended] at failed
        obtain ⟨last, stopped, cause⟩ := eq_error_of_failure? failed
        rw [stopped]
        exact .inl (cause ▸ excuse)
      · rw [step'.run_eq]
        exact ih next step reached

end Scene

namespace Expander

variable {l : Likeness} {ctx ctx' : Context} {e e' : Expander}

theorem processSource_like (suits : l.Suits ctx ctx') (like : l.Like e e') (roomier : l.Roomier (room ctx e) (room ctx' e'))
    (source : List Char) (file : String) :
    Mirrors l.excused l.Like (processSource ctx source file e) (processSource ctx' source file e') := by
  rw [← Scene.run_begin, ← Scene.run_begin]
  exact Scene.run_like suits ⟨.nil, .reading roomier like⟩

end Expander

theorem Input.expand_like {l : Likeness} {ctx ctx' : Context} (suits : l.Suits ctx ctx') (noted : ∀ journal, l.noted journal journal)
    (opened : ∀ chain, l.opened chain chain) (input : Input) (e : Expander) :
    Mirrors l.excused l.Like (input.expand ctx e) (input.expand ctx' e) := by
  have same (e : Expander) : l.Like e e := ⟨e.journal, e.chain, noted _, opened _, rfl⟩
  have roomier (e : Expander) : l.Roomier (Expander.room ctx e) (Expander.room ctx' e) := by
    unfold Expander.room
    rcases suits.limits with ⟨_, depth, _⟩ | excuse
    · exact .inl (by rw [depth])
    · exact .inr ⟨Int.toNat_le_toNat (Int.sub_le_sub_right suits.maxIncludeDepth _), fun f _ => excuse f⟩
  cases input with
  | text source file => exact Expander.processSource_like suits (same e) (roomier e) source file
  | stored path =>
    unfold expand Expander.processFile
    dsimp only
    rw [suits.disk]
    split
    · exact mirrors_fail (same _) _
    · exact Expander.processSource_like suits (same _) (roomier _) _ _

end RuneAsm
