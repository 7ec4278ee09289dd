import Mathlib
import RuneAsm.Proofs.Inputs
import RuneAsm.Proofs.Substitution

namespace RuneAsm

open Run

-- When an expansion is done. A program is stable when no file is left to splice in, no body to take out and no
-- invocation to replace, and each definition in it is the one that the table has under its name. Expansions end with
-- stable programs only, and a stable program is expanded by one pass in which nothing changes but the count of the
-- passes.

namespace Expander

variable {ctx : Context} {down : Option (Expander → Run Expander)} {e after : Expander} {p q : Pass} {t : Token}
variable {tokens : List Token} {name : String} {limit : Int}

-- The definition is the one that the table has under its name.
def Confirmed (macros : MacroTable) (t : Token) : Prop :=
  ∀ name, t.kind = .macroDefinition name true → ∃ m, macros.find? name = some m ∧ m.id = t.id

structure Stable (e : Expander) : Prop extends Settled e where
  confirmed : ∀ t ∈ e.program, Confirmed e.macros t

theorem Stable.quiet (stable : Stable e) : ∀ t ∈ e.program, Quiet t :=
  fun t member => ⟨stable.spliced t member, stable.captured t member⟩

theorem confirm_known (kind : t.kind = .macroDefinition name true) (confirmed : Confirmed p.expander.macros t) :
    confirm p t name = .ok (p.keep t) := by
  obtain ⟨m, found, same⟩ := confirmed name kind
  unfold confirm MacroTable.define
  dsimp only
  rw [found]
  dsimp only
  rw [if_pos same]

theorem define_finds {macros later : MacroTable} {m : Macro} (defined : macros.define m = .ok later) :
    macros.Within later ∧ ∃ k, later.find? m.name = some k ∧ k.id = m.id := by
  unfold MacroTable.define at defined
  split at defined
  · rename_i new
    cases defined
    exact ⟨macros.within_enter m, m, by simp [MacroTable.find?_enter, new], rfl⟩
  · rename_i earlier found
    split at defined
    · rename_i same
      cases defined
      exact ⟨fun _ _ known => known, earlier, found, same⟩
    · cases defined

theorem rewrite_stable (quiet : ∀ t ∈ tokens, Quiet t) (confirmed : ∀ t ∈ tokens, Confirmed p.expander.macros t) :
    rewrite ctx down tokens p = .ok { p with output := p.output ++ tokens } := by
  fun_induction rewrite ctx down tokens p with
  | case1 p => simp
  | case2 t rest p name kind ih => exact absurd kind ((quiet t List.mem_cons_self).1 name)
  | case3 t rest p name kind ih =>
    rw [confirm_known kind (confirmed t List.mem_cons_self), andThen_ok,
      ih (p.keep t) (fun u member => quiet u (List.mem_cons_of_mem _ member))
        (fun u member => confirmed u (List.mem_cons_of_mem _ member))]
    simp [Pass.keep]
  | case4 t rest p name kind found missing => exact absurd kind ((quiet t List.mem_cons_self).2 name)
  | case5 t rest p name kind opener unpaired => exact absurd kind ((quiet t List.mem_cons_self).2 name)
  | case6 t rest p name kind span found ih => exact absurd kind ((quiet t List.mem_cons_self).2 name)
  | case7 t rest p _ _ _ ih =>
    rw [ih (fun u member => quiet u (List.mem_cons_of_mem _ member))
      (fun u member => confirmed u (List.mem_cons_of_mem _ member))]
    simp [Pass.keep]

-- A first half that was gone through has looked at every definition.
theorem confirmed_of_rewrite (quiet : ∀ t ∈ tokens, Quiet t) (ran : rewrite ctx down tokens p = .ok q) :
    p.expander.macros.Within q.expander.macros ∧ ∀ t ∈ tokens, Confirmed q.expander.macros t := by
  fun_induction rewrite ctx down tokens p with
  | case1 p =>
    cases ran
    exact ⟨fun _ _ found => found, by simp⟩
  | case2 t rest p name kind ih => exact absurd kind ((quiet t List.mem_cons_self).1 name)
  | case3 t rest p name kind ih =>
    obtain ⟨middle, first, later⟩ := andThen_eq_ok ran
    obtain ⟨macros, defined, rfl⟩ := confirm_ok first
    obtain ⟨grown, m, found, same⟩ := define_finds defined
    obtain ⟨further, others⟩ := ih _ (fun u member => quiet u (List.mem_cons_of_mem _ member)) later
    refine ⟨fun other k known => further other k (grown other k known), List.forall_mem_cons.mpr ⟨?_, others⟩⟩
    intro other is
    rw [kind] at is
    cases is
    exact ⟨m, further name m found, same⟩
  | case4 t rest p name kind found missing => cases ran
  | case5 t rest p name kind opener unpaired => cases ran
  | case6 t rest p name kind span found ih => exact absurd kind ((quiet t List.mem_cons_self).2 name)
  | case7 t rest p _ noDefinition _ ih =>
    obtain ⟨grown, others⟩ := ih (fun u member => quiet u (List.mem_cons_of_mem _ member)) ran
    refine ⟨grown, List.forall_mem_cons.mpr ⟨?_, others⟩⟩
    intro name kind
    exact absurd kind (noDefinition name)

theorem unwrap_stable (unused : ∀ t ∈ e.program, invoked? e.macros t = none) :
    unwrap limit e = .ok { expander := e, output := e.program.toArray } := by
  rw [unwrap_eq, each_unwrapToken_stable unused]
  simp

theorem settle_stable (stable : Stable e) (passes : Nat) :
    settle ctx down (passes + 1) e = .ok (e.countPass.note (.stable (e.stats.passes + 1) e.stats.rewrites)) := by
  have rewritten : rewrite ctx down e.program { expander := e.countPass } =
      .ok { expander := e.countPass, output := e.program.toArray } := by
    rw [rewrite_stable stable.quiet stable.confirmed]
    simp
  have same : (⟨e.countPass, e.program.toArray, false⟩ : Pass).result = e.countPass := by
    simp [Pass.result, countPass]
  have unwrapped : unwrap ctx.settings.maxExpansions e.countPass = .ok ⟨e.countPass, e.program.toArray, false⟩ :=
    unwrap_stable stable.unwrapped
  rw [settle, rewritten]
  dsimp only
  rw [same, unwrapped]
  rfl

-- The last pass has found nothing to do, so the next one will not either.
theorem stable_of_settle {passes : Nat} (ran : settle ctx down passes e = .ok after) : Stable after ∧ 0 < passes := by
  induction passes generalizing e with
  | zero => cases ran
  | succ passes ih =>
    refine ⟨?_, Nat.succ_pos passes⟩
    unfold settle at ran
    split at ran
    · cases ran
    · rename_i rewritten first
      split at ran
      · cases ran
      · rename_i unwrapped second
        dsimp only at ran
        split at ran
        · exact (ih ran).1
        · rename_i unchanged
          obtain ⟨rewrites, unwraps⟩ : rewritten.changed = false ∧ unwrapped.changed = false := by simpa using unchanged
          obtain ⟨⟨macros, copied⟩, quiet⟩ := rewrite_unchanged first rewrites
          obtain ⟨same, unused⟩ := unwrap_unchanged second unwraps
          obtain ⟨_, confirmed⟩ := confirmed_of_rewrite quiet first
          have program : rewritten.result.program = e.program := by simp [copied, Pass.result]
          cases ran
          rw [same]
          refine ⟨⟨?_, ?_, unused⟩, ?_⟩
          · intro t member
            exact (quiet t (program ▸ member)).1
          · intro t member
            exact (quiet t (program ▸ member)).2
          · intro t member
            exact confirmed t (program ▸ member)

-- Expanding once more what an expansion gave, from whatever state and program it started: the very same tokens, tables
-- and counters, and one more pass.
theorem process_again (ctx : Context) (e : Expander) (ran : process ctx e = .ok after) :
    process ctx after = .ok { after with
      stats.passes := after.stats.passes + 1
      journal := .stable (after.stats.passes + 1) after.stats.rewrites :: after.journal } := by
  unfold process at ran ⊢
  rw [expand_eq] at ran ⊢
  obtain ⟨stable, some⟩ := stable_of_settle ran
  obtain ⟨passes, limit⟩ := Nat.exists_eq_succ_of_ne_zero (Nat.ne_of_gt some)
  rw [limit]
  exact settle_stable stable passes

-- One macro defines another, which a file invokes.
theorem process_again_nested :
    let ctx : Context := ⟨{}, ⟨[], [(["f"], .file [110])]⟩⟩
    let e := (({} : Expander).read {} "%m \x7b %n \x7b 01 \x7d n \x7d m ~f".toList "<input>").state
    ∃ after, process ctx e = .ok after ∧ after.stats = ⟨3, 6, 1, 2, 3⟩ ∧
      process ctx after = .ok { after with
        stats.passes := after.stats.passes + 1
        journal := .stable (after.stats.passes + 1) after.stats.rewrites :: after.journal } := by
  intro ctx e
  have ran : (process ctx e).toOption.map (·.stats) = some ⟨3, 6, 1, 2, 3⟩ := by decide +kernel
  obtain ⟨after, first, counted⟩ := Option.map_eq_some_iff.mp ran
  exact ⟨after, eq_ok_of_toOption first, counted, process_again ctx e (eq_ok_of_toOption first)⟩

end Expander

end RuneAsm
