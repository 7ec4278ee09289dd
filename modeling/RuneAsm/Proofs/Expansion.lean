import Mathlib
import RuneAsm.Proofs.Copying

namespace RuneAsm

open Run

-- What an expansion keeps. The tokens of a program stay orderly and in custody through captures, inclusions and copies,
-- at every depth of included files; so an expansion fails only with one of five kinds of diagnostics, and what it gives
-- has nothing left to expand.

namespace MacroTable

theorem bodies_enter (macros : MacroTable) (m : Macro) : (macros.enter m).bodies = macros.bodies ++ m.body := by
  simp [bodies, enter]

theorem find?_enter (macros : MacroTable) (m : Macro) (name : String) : (macros.enter m).find? name =
    (macros.find? name).or (if m.name = name then some m else none) := by
  simp only [find?, enter, List.find?_append]
  by_cases same : m.name = name <;> simp [same]

def Within (macros later : MacroTable) : Prop := ∀ name m, macros.find? name = some m → later.find? name = some m

theorem within_enter (macros : MacroTable) (m : Macro) : macros.Within (macros.enter m) := by
  intro name k found
  rw [find?_enter, found]
  rfl

end MacroTable

namespace Expander

variable {ctx : Context} {e : Expander} {p : Pass} {t : Token} {name : String}
variable {tokens stack live foreign : List Token} {span : BodySpan}

structure BodySpan.Fits (span : BodySpan) (tokens : List Token) : Prop where
  parts : tokens = span.gap ++ span.opener :: (span.inside ++ span.closer :: span.rest)
  gap : ∀ t ∈ span.gap, isGap t = true
  opens : opensBody span.opener.kind = true
  pairs : Pairs span.opener span.closer
  inside : Balanced span.inside

theorem bodySpan_parts (found : bodySpan tokens = .ok span) :
    tokens = span.gap ++ span.opener :: (span.inside ++ span.closer :: span.rest) := by
  unfold bodySpan at found
  split at found
  · cases found
  · rename_i opener after opened
    split at found
    · split at found
      · cases found
      · rename_i closer rest closed
        cases found
        dsimp only
        rw [← closed, List.takeWhile_append_dropWhile, ← opened, List.takeWhile_append_dropWhile]
    · cases found

theorem isGap_of_opensBody {opener : Token} (opens : opensBody opener.kind = true) : isGap opener = false := by
  cases kind : opener.kind <;> simp_all [opensBody, isGap, Token.isTransparent, TokenKind.isTransparent]

-- Serial numbers tell the closing bracket from everything before it.
theorem bodySpan_of_parts {gap inside rest : List Token} {opener closer : Token} (skipped : ∀ u ∈ gap, isGap u = true)
    (opens : opensBody opener.kind = true) (forth : opener.partner = some closer.id)
    (serials : ((gap ++ opener :: (inside ++ closer :: rest)).map (·.id)).Nodup) :
    bodySpan (gap ++ opener :: (inside ++ closer :: rest)) = .ok ⟨gap, opener, inside, closer, rest⟩ := by
  have noGap : ¬ isGap opener = true := by simp [isGap_of_opensBody opens]
  have skip : ∀ u ∈ inside, decide (some u.id ≠ opener.partner) = true := by
    intro u member
    have apart : u.id ≠ closer.id := by
      simp only [List.map_append, List.map_cons, List.nodup_append, List.nodup_cons] at serials
      exact serials.2.1.2.2.2 _ (List.mem_map_of_mem member) _ (by simp)
    simpa [forth] using apart
  unfold bodySpan
  rw [List.dropWhile_append_of_pos skipped, List.takeWhile_append_of_pos skipped, List.dropWhile_cons_of_neg noGap,
    List.takeWhile_cons_of_neg noGap, List.append_nil]
  simp only [opens, if_true]
  rw [List.dropWhile_append_of_pos skip, List.takeWhile_append_of_pos skip]
  simp [forth]

-- In an orderly program a bracket that opens a body has its partner further on.
theorem bodySpan_cases (nesting : Nesting stack tokens []) (serials : (tokens.map (·.id)).Nodup)
    (regular : ∀ t ∈ tokens, t.kind.Regular) :
    (∃ found, bodySpan tokens = .error (.notBracket found)) ∨
      ∃ span inner, bodySpan tokens = .ok span ∧ span.Fits tokens ∧ Nesting stack span.gap inner ∧
        Nesting inner span.rest [] := by
  have whole := List.takeWhile_append_dropWhile (p := isGap) (l := tokens)
  cases dropped : tokens.dropWhile isGap with
  | nil => exact .inl ⟨none, by simp [bodySpan, dropped]⟩
  | cons opener after =>
    cases opens : opensBody opener.kind with
    | false => exact .inl ⟨some opener.text, by simp [bodySpan, dropped, opens]⟩
    | true =>
      rw [dropped] at whole
      rw [← whole] at nesting serials regular
      obtain ⟨c, opensHere⟩ := closer?_of_opensBody (regular opener (by simp)) opens
      obtain ⟨inner, gapNesting, bodyNesting⟩ := nesting.split
      obtain ⟨inside, closer, rest, rfl, balanced, pairs, outer⟩ := (bodyNesting.of_opening opensHere).close
      have skipped : ∀ u ∈ tokens.takeWhile isGap, isGap u = true := fun u member => List.mem_takeWhile_imp member
      have found := bodySpan_of_parts skipped opens pairs.forth serials
      rw [whole] at found
      exact .inr ⟨_, inner, found, ⟨whole.symm, skipped, opens, pairs, balanced⟩, gapNesting, outer⟩

def faults : List Kind := Reader.faults ++ [.macroMisuse, .inclusion]

-- The tokens still to come follow those written; the foreign ones belong to programs that wait.
structure Sound (foreign rest : List Token) (p : Pass) : Prop where
  holds : p.expander.Holds (foreign ++ (p.output.toList ++ rest))
  orderly : Orderly (p.output.toList ++ rest)

theorem fail_expands {good : Pass → Prop} {l : Location} {cause : Cause}
    (kind : cause.kind ∈ [Kind.macroMisuse, Kind.inclusion]) :
    Ends good (Failure.Within faults) (p.fail l cause) := ⟨_, rfl, List.mem_append_right _ kind⟩

theorem sound_keep {rest : List Token} (sound : Sound foreign (t :: rest) p) :
    Sound foreign rest (p.keep t) := by
  have same : (p.keep t).output.toList ++ rest = p.output.toList ++ t :: rest := by simp [Pass.keep]
  exact ⟨by rw [same]; exact sound.holds, by rw [same]; exact sound.orderly⟩

theorem Sound.rest_nesting {rest : List Token} (sound : Sound foreign (t :: rest) p)
    (opensNone : t.kind.closer? = none) (closesNone : t.kind.closes? = none) :
    ∃ stack, Nesting [] p.output.toList stack ∧ Nesting stack rest [] ∧ t.partner = none := by
  obtain ⟨stack, front, back⟩ := Nesting.split sound.orderly.balanced
  obtain ⟨alone, tail⟩ := back.of_plain opensNone closesNone
  exact ⟨stack, front, tail, alone⟩

-- A token that is no bracket gives way to orderly tokens.
theorem Sound.replace_orderly {rest new : List Token} (sound : Sound foreign (t :: rest) p)
    (opensNone : t.kind.closer? = none) (closesNone : t.kind.closes? = none) (orderly : Orderly new) :
    Orderly (p.output.toList ++ new ++ rest) := by
  obtain ⟨stack, front, back, _⟩ := sound.rest_nesting opensNone closesNone
  refine ⟨(front.append (orderly.balanced.anywhere stack)).append back, ?_⟩
  intro u member
  rcases List.mem_append.mp member with early | late
  · rcases List.mem_append.mp early with written | fresh
    · exact sound.orderly.regular u (List.mem_append_left _ written)
    · exact orderly.regular u fresh
  · exact sound.orderly.regular u (List.mem_append_right _ (List.mem_cons_of_mem _ late))

theorem sound_replace {rest new : List Token} {after : Expander} (sound : Sound foreign (t :: rest) p)
    (opensNone : t.kind.closer? = none) (closesNone : t.kind.closes? = none)
    (holds : after.Holds (foreign ++ (p.output.toList ++ t :: rest) ++ new)) (orderly : Orderly new) :
    Sound foreign rest (p.replaceBy after new) := by
  have written : (p.replaceBy after new).output.toList = p.output.toList ++ new := by simp [Pass.replaceBy]
  refine ⟨?_, by rw [written]; exact sound.replace_orderly opensNone closesNone orderly⟩
  have fewer : (foreign ++ (p.output.toList ++ (rest ++ new))).Sublist
      (foreign ++ (p.output.toList ++ t :: rest) ++ new) := by simp
  have kept : after.Holds (foreign ++ (p.output.toList ++ new ++ rest)) := (holds.sublist fewer).perm
    (List.perm_iff_count.mpr fun u => by simp only [List.count_append]; omega)
  rw [written]
  exact kept.aside rfl rfl rfl

theorem Sound.rest_serials {rest : List Token} (sound : Sound foreign (t :: rest) p) :
    (rest.map (·.id)).Nodup := by
  refine sound.holds.serials.sublist (List.Sublist.map _ ?_)
  exact ((List.sublist_cons_self t rest).trans (List.sublist_append_right _ _)).trans (List.sublist_append_right _ _)

theorem Sound.rest_regular {rest : List Token} (sound : Sound foreign (t :: rest) p) :
    ∀ u ∈ rest, u.kind.Regular :=
  fun u member => sound.orderly.regular u (List.mem_append_right _ (List.mem_cons_of_mem _ member))

-- The closing bracket gives up its label, if it has one; no other token has the same.
theorem capture_custody {symbols : SymbolTable} {nextId : Nat} {body : List Token} {opener closer : Token}
    (tokens held : List Token) (custody : Custody symbols nextId (closer :: opener :: (tokens ++ held)))
    (pairs : Pairs opener closer)
    (fewer : body.Sublist tokens) :
    Custody (match closer.kind.label? with | some label => symbols.erase label | none => symbols) nextId
      (body ++ held) := by
  have remaining : (body ++ held).Sublist (opener :: (tokens ++ held)) :=
    List.Sublist.cons _ (fewer.append_right held)
  have rest : Custody symbols nextId (body ++ held) := custody.sublist (remaining.cons _)
  obtain ⟨c, _, closes⟩ := pairs.bracket
  cases found : closer.kind.label? with
  | none => exact rest
  | some label =>
    refine rest.erase ?_
    intro used
    have labels := custody.labels
    rw [closerLabels_cons, ← label?_of_closes? closes, found] at labels
    exact (List.nodup_cons.mp labels).1 ((remaining.filterMap _).subset used)

def BodySpan.macroOf (span : BodySpan) (t : Token) (name : String) : Macro :=
  ⟨t.id, name, t.location, span.inside.filter (!·.isTransparent)⟩

-- The state after a body was taken out.
def captured (e : Expander) (t : Token) (name : String) (span : BodySpan) : Expander :=
  { e with
    symbols :=
      match span.closer.kind.label? with
      | some label => e.symbols.erase label
      | none => e.symbols
    macros := e.macros.enter (span.macroOf t name)
    stats.definitions := e.stats.definitions + 1 }.note
      (.captured name (span.macroOf t name).body.length t.location)

theorem capture_eq (new : p.expander.macros.find? name = none) : capture p t name span = .ok
    (p.replaceBy (captured p.expander t name span) ({ t with kind := .macroDefinition name true } :: span.gap)) := by
  unfold capture MacroTable.define
  dsimp only
  rw [new]
  rfl

theorem capture_refused {m : Macro} (span : BodySpan) (apart : ∀ other ∈ p.expander.macros.entries, other.id ≠ t.id)
    (found : p.expander.macros.find? name = some m) : ∃ after : Pass, capture p t name span =
      after.fail t.location (.macroMisuse (.alreadyDefined name m.location)) := by
  have other : m.id ≠ t.id := apart m (List.mem_of_find?_eq_some found)
  unfold capture MacroTable.define
  dsimp only
  rw [found]
  dsimp only
  rw [if_neg other]
  exact ⟨_, rfl⟩

-- The only way in which a body is taken out.
theorem capture_ok {q : Pass} (apart : ∀ other ∈ p.expander.macros.entries, other.id ≠ t.id)
    (ran : capture p t name span = .ok q) :
    q = p.replaceBy (captured p.expander t name span) ({ t with kind := .macroDefinition name true } :: span.gap) := by
  cases found : p.expander.macros.find? name with
  | none =>
    rw [capture_eq found] at ran
    cases ran
    rfl
  | some m =>
    obtain ⟨after, refused⟩ := capture_refused span apart found
    rw [refused] at ran
    cases ran

theorem holds_captured {front : List Token} (fits : span.Fits tokens) (holds : e.Holds (front ++ t :: tokens))
    (kind : t.kind = .macroDefinition name false) (orderly : Orderly (span.macroOf t name).body) :
    (captured e t name span).Holds
      (front ++ { t with kind := .macroDefinition name true } :: (span.gap ++ span.rest)) := by
  -- All that is held afterwards besides the definition itself.
  let others := front ++ (span.gap ++ span.rest) ++ (e.macros.bodies ++ (span.macroOf t name).body)
  have bodies : (captured e t name span).macros.bodies = e.macros.bodies ++ (span.macroOf t name).body :=
    MacroTable.bodies_enter e.macros (span.macroOf t name)
  have held := holds.custody
  rw [fits.parts] at held
  have taken := capture_custody span.inside (front ++ t :: (span.gap ++ span.rest) ++ e.macros.bodies)
    (held.perm (List.perm_iff_count.mpr fun u => by simp only [List.count_append, List.count_cons]; omega))
    fits.pairs (List.filter_sublist (p := (!·.isTransparent)))
  have custody : Custody (captured e t name span).symbols e.nextId (t :: others) :=
    taken.perm (List.perm_iff_count.mpr fun u => by
      simp only [others, BodySpan.macroOf, List.count_append, List.count_cons]; omega)
  have known : ∀ u ∈ others, u ∈ front ++ t :: tokens ++ e.macros.bodies := by
    intro u member
    have inBody : u ∈ (span.macroOf t name).body → u ∈ span.inside := List.mem_of_mem_filter
    rw [fits.parts]
    simp only [others, List.mem_append, List.mem_cons] at member ⊢
    tauto
  have split {u : Token} (member : u ∈ front ++ { t with kind := .macroDefinition name true } :: (span.gap ++ span.rest) ++
      (captured e t name span).macros.bodies) : u = { t with kind := .macroDefinition name true } ∨ u ∈ others := by
    rw [bodies] at member
    simp only [others, List.mem_append, List.mem_cons] at member ⊢
    tauto
  refine ⟨?_, ?_, ?_, ?_⟩
  · rw [bodies]
    have changed : Custody (captured e t name span).symbols e.nextId
        ({ t with kind := .macroDefinition name true } :: others) :=
      custody.congr rfl (by simp [closerLabels_cons, kind, TokenKind.closerLabel?])
    exact changed.perm (List.perm_iff_count.mpr fun u => by
      simp only [others, List.count_append, List.count_cons]; omega)
  · intro m member
    rcases List.mem_append.mp member with old | new
    · exact holds.stored m old
    · rw [List.mem_singleton.mp new]
      exact ⟨orderly, custody.fresh t (by simp)⟩
  · intro u member label unclaimed m entry
    rcases split member with rfl | inOthers
    · cases unclaimed
    · rcases List.mem_append.mp entry with old | new
      · exact holds.unclaimed u (known u inOthers) label unclaimed m old
      · rw [List.mem_singleton.mp new]
        have apart := (List.nodup_cons.mp custody.serials).1
        intro same
        exact apart (List.mem_map.mpr ⟨u, inOthers, same.symm⟩)
  · intro u member label claimed
    change ((e.macros.enter (span.macroOf t name)).find? label).isSome
    rw [MacroTable.find?_enter]
    rcases split member with rfl | inOthers
    · cases claimed
      simp [BodySpan.macroOf]
    · simp [holds.claimed u (known u inOthers) label claimed]

theorem capture_sound {rest : List Token} (sound : Sound foreign (t :: rest) p)
    (kind : t.kind = .macroDefinition name false) (fits : span.Fits rest) {stack inner : List Token}
    (front : Nesting [] p.output.toList stack) (alone : t.partner = none) (gap : Nesting stack span.gap inner)
    (back : Nesting inner span.rest []) :
    Ends (Sound foreign span.rest) (Failure.Within faults) (capture p t name span) := by
  have apart : ∀ other ∈ p.expander.macros.entries, other.id ≠ t.id :=
    sound.holds.unclaimed t (by simp) name kind
  have regular : ∀ u ∈ p.output.toList ++ t :: rest, u.kind.Regular := sound.orderly.regular
  rw [fits.parts] at regular
  have body : Orderly (span.macroOf t name).body :=
    ⟨fits.inside.solid, fun u member => regular u (by simp [List.mem_of_mem_filter member])⟩
  have holds := sound.holds
  rw [← List.append_assoc] at holds
  cases found : p.expander.macros.find? name with
  | some m =>
    obtain ⟨after, refused⟩ := capture_refused span apart found
    rw [refused]
    exact fail_expands (by simp [Cause.kind])
  | none =>
    rw [capture_eq found]
    refine ⟨?_, ?_, ?_⟩
    · have written (after : Expander) :
          foreign ++ ((p.replaceBy after ({ t with kind := .macroDefinition name true } :: span.gap)).output.toList ++
            span.rest) =
          foreign ++ p.output.toList ++ { t with kind := .macroDefinition name true } :: (span.gap ++ span.rest) := by
        simp [Pass.replaceBy]
      have after := holds_captured fits holds kind body
      rw [written]
      exact after.aside rfl rfl rfl
    · have definition : Balanced [{ t with kind := .macroDefinition name true }] := .single rfl rfl alone
      simpa [Pass.replaceBy, Balanced] using
        ((front.append (definition.anywhere stack)).append gap).append back
    · intro u member
      have cases : u = { t with kind := .macroDefinition name true } ∨ u ∈ p.output.toList ∨ u ∈ span.gap ∨
          u ∈ span.rest := by
        simp only [Pass.replaceBy, Array.toList_appendList, List.mem_append, List.mem_cons] at member
        tauto
      rcases cases with rfl | there | there | there
      · trivial
      all_goals exact regular u (by simp [there])

structure Settled (e : Expander) : Prop where
  spliced : ∀ t ∈ e.program, ∀ name, t.kind ≠ .inclusion name
  captured : ∀ t ∈ e.program, ∀ name, t.kind ≠ .macroDefinition name false
  unwrapped : ∀ t ∈ e.program, invoked? e.macros t = none

-- What is asked of the expansion of one program while others wait.
def Keeps (f : Expander → Run Expander) : Prop :=
  ∀ foreign e, e.Holds (foreign ++ e.program) → Orderly e.program →
    Ends (fun after => after.Holds (foreign ++ after.program) ∧ Orderly after.program ∧ Settled after)
      (Failure.Within faults) (f e)

theorem read_keeps (settings : Settings) (source : List Char) (file : String) (holds : e.Holds live) :
    Ends (fun after => after.Holds (live ++ after.program) ∧ Orderly after.program ∧ after.macros = e.macros)
      (Failure.Within faults) (e.read settings source file) :=
  (read_holds settings source file holds).mono (fun _ good => good)
    (fun _ failed => failed.mono (List.subset_append_left _ _))

variable {down : Option (Expander → Run Expander)} {rest : List Token}

theorem splice_sound (keeps : ∀ enter, down = some enter → Keeps enter) (sound : Sound foreign (t :: rest) p)
    (kind : t.kind = .inclusion name) : Ends (Sound foreign rest) (Failure.Within faults) (splice ctx down t name p) := by
  unfold splice
  split
  · exact fail_expands (by simp [Cause.kind])
  · rename_i path _
    split
    · exact fail_expands (by simp [Cause.kind])
    · split
      · exact fail_expands (by simp [Cause.kind])
      · rename_i enter
        split
        · exact fail_expands (by simp [Cause.kind])
        · rename_i source _
          dsimp only
          generalize opened : (p.expander.note (.including path.text t.location)).nested (ctx.disk.resolve path) = inner
          have holds : inner.Holds (foreign ++ (p.output.toList ++ t :: rest)) := by
            subst opened
            exact sound.holds.aside rfl rfl rfl
          have ends := (read_keeps ctx.settings source path.text holds).andThen
            (fun middle reached => keeps enter rfl _ middle reached.1 reached.2.1)
          split
          · rename_i last ran
            obtain ⟨after, orderly, _⟩ := ends.ok ran
            refine sound_replace sound (by rw [kind]; rfl) (by rw [kind]; rfl) ?_ orderly
            exact after.aside rfl rfl rfl
          · rename_i stop ran
            exact ends.error ran

-- The only way in which an inclusion succeeds.
theorem splice_ok {q : Pass} (ran : splice ctx down t name p = .ok q) : ∃ path enter source lexed inner,
    findFile ctx name t.location.file = some path ∧ down = some enter ∧ ctx.disk.readText path = .ok source ∧
      ((p.expander.note (.including path.text t.location)).nested (ctx.disk.resolve path)).read ctx.settings source
        path.text = .ok lexed ∧ enter lexed = .ok inner ∧
      q = p.replaceBy ((p.expander.absorb inner).addStats inner.stats) inner.program := by
  unfold splice at ran
  split at ran
  · cases ran
  · rename_i path found
    split at ran
    · cases ran
    · split at ran
      · cases ran
      · rename_i enter
        split at ran
        · cases ran
        · rename_i source stored
          dsimp only at ran
          split at ran
          · rename_i inner expanded
            cases ran
            obtain ⟨lexed, read, entered⟩ := andThen_eq_ok expanded
            exact ⟨path, enter, source, lexed, inner, found, rfl, stored, read, entered, rfl⟩
          · cases ran

theorem define_known {macros later : MacroTable} {m : Macro} (known : (macros.find? m.name).isSome)
    (defined : macros.define m = .ok later) : later = macros := by
  obtain ⟨earlier, found⟩ := Option.isSome_iff_exists.mp known
  unfold MacroTable.define at defined
  rw [found] at defined
  dsimp only at defined
  split at defined
  · cases defined
    rfl
  · cases defined

-- The only way in which a captured definition is confirmed.
theorem confirm_ok {q : Pass} (ran : confirm p t name = .ok q) : ∃ macros,
    p.expander.macros.define ⟨t.id, name, t.location, p.expander.macros.broughtBy t.id⟩ = .ok macros ∧
      q = { p with expander.macros := macros }.keep t := by
  unfold confirm at ran
  dsimp only at ran
  split at ran
  · cases ran
  · rename_i macros defined
    cases ran
    exact ⟨macros, defined, rfl⟩

theorem confirm_keep {q : Pass} (known : (p.expander.macros.find? name).isSome) (ran : confirm p t name = .ok q) :
    q = p.keep t := by
  obtain ⟨macros, defined, rfl⟩ := confirm_ok ran
  rw [define_known known defined]

theorem Sound.claimed (sound : Sound foreign (t :: rest) p) (kind : t.kind = .macroDefinition name true) :
    (p.expander.macros.find? name).isSome :=
  sound.holds.claimed t (by simp) name kind

theorem confirm_sound (sound : Sound foreign (t :: rest) p) (kind : t.kind = .macroDefinition name true) :
    Ends (Sound foreign rest) (Failure.Within faults) (confirm p t name) := by
  cases ran : confirm p t name with
  | ok q =>
    rw [confirm_keep (sound.claimed kind) ran]
    exact sound_keep sound
  | error stop =>
    unfold confirm at ran
    dsimp only at ran
    split at ran
    · exact ran ▸ fail_expands (by simp [Cause.kind])
    · cases ran

theorem rewrite_keep (noInclusion : ∀ name, t.kind ≠ .inclusion name)
    (noDefinition : ∀ name captured, t.kind ≠ .macroDefinition name captured) :
    rewrite ctx down (t :: rest) p = rewrite ctx down rest (p.keep t) := by
  rw [rewrite]
  split <;> simp_all

theorem rewrite_inclusion (kind : t.kind = .inclusion name) :
    rewrite ctx down (t :: rest) p = (splice ctx down t name p).andThen (rewrite ctx down rest) := by
  rw [rewrite]
  split <;> simp_all

theorem rewrite_captured (kind : t.kind = .macroDefinition name true) :
    rewrite ctx down (t :: rest) p = (confirm p t name).andThen (rewrite ctx down rest) := by
  rw [rewrite]
  split <;> simp_all

theorem rewrite_bodiless {found : Option String} (kind : t.kind = .macroDefinition name false)
    (missing : bodySpan rest = .error (.notBracket found)) :
    rewrite ctx down (t :: rest) p = p.fail t.location (.macroMisuse (.noBody name found)) := by
  rw [rewrite]
  split <;> simp_all
  split <;> simp_all

theorem rewrite_unpaired {opener : Token} (kind : t.kind = .macroDefinition name false)
    (missing : bodySpan rest = .error (.unpaired opener)) :
    rewrite ctx down (t :: rest) p = .fail p (.unpairedBracket opener.location) := by
  rw [rewrite]
  split <;> simp_all
  split <;> simp_all

theorem rewrite_definition {span : BodySpan} (kind : t.kind = .macroDefinition name false)
    (found : bodySpan rest = .ok span) :
    rewrite ctx down (t :: rest) p = (capture p t name span).andThen (rewrite ctx down span.rest) := by
  rw [rewrite]
  split <;> simp_all
  split <;> simp_all

-- What follows a definition in an orderly program, with what the capture needs of it.
theorem definition_cases (sound : Sound foreign (t :: rest) p) (kind : t.kind = .macroDefinition name false) :
    ∃ stack, Nesting stack rest [] ∧ ((∃ found, bodySpan rest = .error (.notBracket found)) ∨
      ∃ span, bodySpan rest = .ok span ∧ span.Fits rest ∧
        Ends (Sound foreign span.rest) (Failure.Within faults) (capture p t name span)) := by
  obtain ⟨stack, front, back, alone⟩ := sound.rest_nesting (by rw [kind]; rfl) (by rw [kind]; rfl)
  refine ⟨stack, back, ?_⟩
  rcases bodySpan_cases back sound.rest_serials sound.rest_regular with missing | ⟨span, inner, found, fits, gap, later⟩
  · exact .inl missing
  · exact .inr ⟨span, found, fits, capture_sound sound kind fits front alone gap later⟩

theorem rewrite_sound (ctx : Context) (keeps : ∀ enter, down = some enter → Keeps enter) (sound : Sound foreign tokens p) :
    Ends (Sound foreign []) (Failure.Within faults) (rewrite ctx down tokens p) := by
  fun_induction rewrite ctx down tokens p with
  | case1 p => exact sound
  | case2 t rest p name kind ih => exact (splice_sound keeps sound kind).andThen fun p' => ih p'
  | case3 t rest p name kind ih => exact (confirm_sound sound kind).andThen fun p' => ih p'
  | case4 t rest p name kind found missing => exact fail_expands (by simp [Cause.kind])
  | case5 t rest p name kind opener unpaired =>
    obtain ⟨_, _, ⟨found, missing⟩ | ⟨span, found, _⟩⟩ := definition_cases sound kind
    · rw [missing] at unpaired
      cases unpaired
    · rw [found] at unpaired
      cases unpaired
  | case6 t rest p name kind span found ih =>
    obtain ⟨_, _, ⟨other, missing⟩ | ⟨other, same, _, taken⟩⟩ := definition_cases sound kind
    · rw [missing] at found
      cases found
    · rw [same] at found
      cases found
      exact taken.andThen fun p' => ih p'
  | case7 t rest p _ _ _ ih => exact ih (sound_keep sound)

theorem invoked?_call {macros : MacroTable} {m : Macro} (regular : t.kind.Regular)
    (found : invoked? macros t = some m) : m ∈ macros.entries ∧ ∃ r label, t.kind = .reference r ∧ r.form = .call ∧
      r.target = .named label ∧ macros.find? label = some m := by
  unfold invoked? at found
  split at found
  · rename_i r kind
    split at found
    · rename_i form
      obtain ⟨label, target, entry⟩ := Option.bind_eq_some_iff.mp found
      refine ⟨List.mem_of_find?_eq_some entry, r, label, kind, form, ?_, entry⟩
      rw [kind] at regular
      have suits := regular.2
      cases there : r.target with
      | named other =>
        rw [there] at target
        cases target
        rfl
      | «inline» other =>
        rw [there] at suits
        exact absurd form suits.2
    · cases found
  · cases found

theorem unwrapToken_sound {limit : Int} (sound : Sound foreign (t :: rest) p) :
    Ends (Sound foreign rest) (Failure.Within faults) (unwrapToken limit p t) := by
  unfold unwrapToken
  split
  · exact sound_keep sound
  · rename_i m found
    split
    · exact fail_expands (by simp [Cause.kind])
    · obtain ⟨known, r, label, kind, _, target, _⟩ := invoked?_call (sound.orderly.regular t (by simp)) found
      obtain ⟨c, _, renamed, expanded⟩ := expandMacro_eq sound.holds.custody.distinct m t
      obtain ⟨holds, orderly⟩ := holds_copy sound.holds known renamed t
      rw [expanded]
      have opensNone : t.kind.closer? = none := by simp [kind, TokenKind.closer?, target]
      have closesNone : t.kind.closes? = none := by simp [kind, TokenKind.closes?]
      exact sound_replace sound opensNone closesNone holds orderly

theorem invoked?_empty {macros : MacroTable} (isEmpty : macros.isEmpty = true) (t : Token) : invoked? macros t = none := by
  have none : ∀ label, macros.find? label = none := by
    intro label
    unfold MacroTable.isEmpty at isEmpty
    simp [MacroTable.find?, List.isEmpty_iff.mp isEmpty]
  unfold invoked?
  split
  · split
    · exact Option.bind_eq_none_iff.mpr fun label _ => none label
    · rfl
  · rfl

theorem each_unwrapToken_stable {limit : Int} (unused : ∀ t ∈ tokens, invoked? p.expander.macros t = none) :
    Run.each (unwrapToken limit) p tokens = .ok { p with output := p.output ++ tokens } := by
  induction tokens generalizing p with
  | nil => simp
  | cons t rest ih =>
    have kept : unwrapToken limit p t = .ok (p.keep t) := by
      unfold unwrapToken
      rw [unused t List.mem_cons_self]
    rw [each_cons, kept, andThen_ok, ih (p := p.keep t) (fun u member => unused u (List.mem_cons_of_mem _ member))]
    simp [Pass.keep]

-- An empty table of macros only saves the walk.
theorem unwrap_eq (limit : Int) (e : Expander) :
    unwrap limit e = Run.each (unwrapToken limit) { expander := e } e.program := by
  unfold unwrap
  split
  · rename_i isEmpty
    rw [each_unwrapToken_stable fun t _ => invoked?_empty isEmpty t]
    simp
  · rfl

theorem unwrap_sound (limit : Int) (holds : e.Holds (foreign ++ e.program)) (orderly : Orderly e.program) :
    Ends (Sound foreign []) (Failure.Within faults) (unwrap limit e) := by
  rw [unwrap_eq]
  exact ends_each (Sound foreign) (fun p t rest sound => unwrapToken_sound sound)
    ⟨by simpa using holds, by simpa using orderly⟩

theorem splice_changed {q : Pass} (ran : splice ctx down t name p = .ok q) : q.changed = true := by
  obtain ⟨_, _, _, _, _, _, _, _, _, _, rfl⟩ := splice_ok ran
  rfl

theorem capture_changed {q : Pass} (ran : capture p t name span = .ok q) : q.changed = true := by
  unfold capture at ran
  dsimp only at ran
  split at ran
  · cases ran
  · cases ran
    rfl

theorem rewrite_changed {q : Pass} (ran : rewrite ctx down tokens p = .ok q) (changed : p.changed = true) :
    q.changed = true := by
  fun_induction rewrite ctx down tokens p with
  | case1 p =>
    cases ran
    exact changed
  | case2 t rest p name kind ih =>
    obtain ⟨middle, first, later⟩ := andThen_eq_ok ran
    exact ih middle later (splice_changed first)
  | case3 t rest p name kind ih =>
    obtain ⟨middle, first, later⟩ := andThen_eq_ok ran
    obtain ⟨macros, _, rfl⟩ := confirm_ok first
    exact ih _ later changed
  | case4 => cases ran
  | case5 => cases ran
  | case6 t rest p name kind span found ih =>
    obtain ⟨middle, first, later⟩ := andThen_eq_ok ran
    exact ih middle later (capture_changed first)
  | case7 t rest p _ _ _ ih => exact ih ran changed

-- A half pass that reports no change has copied the program and found nothing to do in it. At most it has entered
-- definitions that another table had captured.
theorem rewrite_unchanged {q : Pass} (ran : rewrite ctx down tokens p = .ok q) (unchanged : q.changed = false) :
    (∃ macros, q = { p with output := p.output ++ tokens, expander.macros := macros }) ∧
      ∀ t ∈ tokens, (∀ name, t.kind ≠ .inclusion name) ∧ ∀ name, t.kind ≠ .macroDefinition name false := by
  have stays {later : Pass} {rest : List Token} (ran : rewrite ctx down rest later = .ok q)
      (changed : later.changed = true) : False := by
    rw [rewrite_changed ran changed] at unchanged
    cases unchanged
  fun_induction rewrite ctx down tokens p with
  | case1 p =>
    cases ran
    exact ⟨⟨q.expander.macros, by simp⟩, by simp⟩
  | case2 t rest p name kind ih =>
    obtain ⟨middle, first, later⟩ := andThen_eq_ok ran
    exact (stays later (splice_changed first)).elim
  | case3 t rest p name kind ih =>
    obtain ⟨middle, first, later⟩ := andThen_eq_ok ran
    obtain ⟨_, _, rfl⟩ := confirm_ok first
    obtain ⟨⟨macros, equal⟩, quiet⟩ := ih _ later
    refine ⟨⟨macros, by rw [equal]; simp [Pass.keep]⟩, ?_⟩
    intro u member
    rcases List.mem_cons.mp member with rfl | inRest
    · simp [kind]
    · exact quiet u inRest
  | case4 => cases ran
  | case5 => cases ran
  | case6 t rest p name kind span found ih =>
    obtain ⟨middle, first, later⟩ := andThen_eq_ok ran
    exact (stays later (capture_changed first)).elim
  | case7 t rest p noInclusion _ noDefinition ih =>
    obtain ⟨⟨macros, equal⟩, quiet⟩ := ih ran
    refine ⟨⟨macros, by rw [equal]; simp [Pass.keep]⟩, ?_⟩
    intro u member
    rcases List.mem_cons.mp member with rfl | inRest
    · exact ⟨noInclusion, noDefinition⟩
    · exact quiet u inRest

theorem unwrapToken_cases {limit : Int} {q : Pass} (ran : unwrapToken limit p t = .ok q) :
    invoked? p.expander.macros t = none ∧ q = p.keep t ∨ q.changed = true := by
  unfold unwrapToken at ran
  split at ran
  · rename_i none
    cases ran
    exact .inl ⟨none, rfl⟩
  · split at ran
    · cases ran
    · unfold expandMacro at ran
      split at ran
      · cases ran
      · cases ran
        exact .inr rfl

theorem each_unwrapToken_unchanged {limit : Int} {q : Pass} (ran : Run.each (unwrapToken limit) p tokens = .ok q)
    (unchanged : q.changed = false) :
    p.changed = false ∧ q = { p with output := p.output ++ tokens } ∧
      ∀ t ∈ tokens, invoked? p.expander.macros t = none := by
  induction tokens generalizing p with
  | nil =>
    cases ran
    exact ⟨unchanged, by simp, by simp⟩
  | cons t rest ih =>
    obtain ⟨middle, first, later⟩ := andThen_eq_ok ran
    obtain ⟨before, equal, quiet⟩ := ih later
    rcases unwrapToken_cases first with ⟨none, rfl⟩ | changed
    · refine ⟨before, by rw [equal]; simp [Pass.keep], ?_⟩
      intro u member
      rcases List.mem_cons.mp member with rfl | inRest
      · exact none
      · exact quiet u inRest
    · rw [changed] at before
      cases before

theorem unwrap_unchanged {limit : Int} {q : Pass} (ran : unwrap limit e = .ok q) (unchanged : q.changed = false) :
    q.result = e ∧ ∀ t ∈ e.program, invoked? e.macros t = none := by
  rw [unwrap_eq] at ran
  obtain ⟨_, equal, quiet⟩ := each_unwrapToken_unchanged ran unchanged
  exact ⟨by simp [equal, Pass.result], quiet⟩

theorem Sound.result (sound : Sound foreign [] p) :
    p.result.Holds (foreign ++ p.result.program) ∧ Orderly p.result.program := by
  have holds := sound.holds
  have orderly := sound.orderly
  rw [List.append_nil] at holds orderly
  exact ⟨holds.aside rfl rfl rfl, orderly⟩

theorem settle_keeps (keeps : ∀ enter, down = some enter → Keeps enter) (passes : Nat) :
    Keeps (settle ctx down passes) := by
  induction passes with
  | zero => exact fun _ _ _ _ => ⟨_, rfl, by simp [Cause.kind, faults]⟩
  | succ passes ih =>
    intro foreign e holds orderly
    have start : Sound foreign e.program { expander := e.countPass } :=
      ⟨holds.aside rfl rfl rfl, orderly⟩
    have first := rewrite_sound ctx keeps start
    unfold settle
    split
    · rename_i stop ran
      exact first.error ran
    · rename_i rewritten ran
      have halfway := first.ok ran
      obtain ⟨halfHolds, halfOrderly⟩ := halfway.result
      have second := unwrap_sound ctx.settings.maxExpansions halfHolds halfOrderly
      split
      · rename_i stop unran
        exact second.error unran
      · rename_i unwrapped unran
        obtain ⟨lastHolds, lastOrderly⟩ := (second.ok unran).result
        dsimp only
        split
        · exact ih foreign _ lastHolds lastOrderly
        · rename_i unchanged
          obtain ⟨first, second⟩ : rewritten.changed = false ∧ unwrapped.changed = false := by simpa using unchanged
          obtain ⟨⟨macros, copied⟩, quiet⟩ := rewrite_unchanged ran first
          obtain ⟨same, invocations⟩ := unwrap_unchanged unran second
          have program : rewritten.result.program = e.program := by simp [copied, Pass.result]
          rw [same] at lastHolds lastOrderly ⊢
          refine ⟨lastHolds.aside rfl rfl rfl, lastOrderly, ?_, ?_, invocations⟩
          · intro t member
            exact (quiet t (program ▸ member)).1
          · intro t member
            exact (quiet t (program ▸ member)).2

theorem expand_keeps (ctx : Context) (room : Nat) : Keeps (expand ctx room) := by
  induction room with
  | zero => exact settle_keeps (by simp) _
  | succ room ih =>
    refine settle_keeps ?_ _
    rintro enter ⟨⟩
    exact ih

-- A fresh expansion holds nothing, whatever was noted before it.
theorem holds_fresh (journal : Journal) : ({ journal } : Expander).Holds [] :=
  ⟨.empty (by simp [SymbolTable.Distinct, SymbolTable.names]) (by simp [SymbolTable.Veiled]), by simp,
    by simp [MacroTable.bodies], by simp [MacroTable.bodies]⟩

theorem processSource_ends (ctx : Context) (source : List Char) (file : String) (holds : e.Holds []) :
    Ends (fun after => after.Holds after.program ∧ Orderly after.program ∧ Settled after) (Failure.Within faults)
      (processSource ctx source file e) := by
  refine (read_keeps ctx.settings source file holds).andThen ?_
  intro middle reached
  have kept := expand_keeps ctx (room ctx middle) [] middle reached.1 reached.2.1
  exact kept

end Expander

end RuneAsm
