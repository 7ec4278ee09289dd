import Mathlib
import RuneAsm.Proofs.Inputs

namespace RuneAsm

open Run

-- Following a program through its expansion. Three actions change it: a body is taken out, a copy of a body is put in,
-- and a file is put in. A relation that reaches over each of them, and from one to the next, reaches over every
-- expansion that succeeds, at whatever depth of included files.

-- The files that were opened to be included, first to last.
def Journal.opened : Journal → List String
  | [] => []
  | .including file _ :: earlier => opened earlier ++ [file]
  | _ :: earlier => opened earlier

theorem Pass.replaceBy_append (p : Pass) (e : Expander) (new rest : List Token) :
    (p.replaceBy e new).output.toList ++ rest = p.output.toList ++ new ++ rest := by
  simp [Pass.replaceBy]

namespace Expander

-- The relation goes from a state and its program to a later state and what the program is by then. The foreign tokens
-- belong to programs that wait.
structure Following (ctx : Context) (R : List Token → Expander → List Token → Expander → List Token → Prop) :
    Prop where
  refl (foreign : List Token) (e : Expander) (program : List Token) : R foreign e program e program
  trans {foreign : List Token} {e middle after : Expander} {program between later : List Token} :
    R foreign e program middle between → R foreign middle between after later → R foreign e program after later
  -- What is counted does not matter, nor what is noted unless a file was opened.
  aside {foreign : List Token} {e middle after : Expander} {program later : List Token} :
    R foreign e program middle later → after.symbols = middle.symbols → after.macros = middle.macros →
      after.nextId = middle.nextId → after.journal.opened = middle.journal.opened → R foreign e program after later
  captured {foreign front rest : List Token} {e : Expander} {t : Token} {name : String} {span : BodySpan} :
    e.Holds (foreign ++ (front ++ t :: rest)) → Orderly (front ++ t :: rest) →
      t.kind = .macroDefinition name false → span.Fits rest →
      R foreign e (front ++ t :: rest) (captured e t name span)
        (front ++ { t with kind := .macroDefinition name true } :: (span.gap ++ span.rest))
  copied {foreign front rest : List Token} {e : Expander} {t : Token} {r : Reference} {m : Macro} {c : Copying} :
    e.Holds (foreign ++ (front ++ t :: rest)) → t.kind = .reference r → m ∈ e.macros.entries → Renamed e m.body c →
      c.expander.journal.opened = e.journal.opened →
      R foreign e (front ++ t :: rest) (c.finished m t) (front ++ copyBody c.expander.nextId m.body c.label ++ rest)
  spliced {foreign front rest : List Token} {e lexed inner : Expander} {t : Token} {name : String} {path : Path}
      {place : Place} {source : List Char} :
    e.Holds (foreign ++ (front ++ t :: rest)) → t.kind = .inclusion name → ctx.disk.readText path = .ok source →
      ((e.note (.including path.text t.location)).nested place).read ctx.settings source path.text = .ok lexed →
      R (foreign ++ (front ++ t :: rest)) lexed lexed.program inner inner.program →
      R foreign e (front ++ t :: rest) inner (front ++ inner.program ++ rest)

variable {ctx : Context} {R : List Token → Expander → List Token → Expander → List Token → Prop}
variable {down : Option (Expander → Run Expander)} {e after : Expander} {p q : Pass} {t : Token} {name : String}
variable {foreign tokens rest : List Token} {span : BodySpan} {limit : Int}

theorem opened_renameCloser (c : Copying) (t : Token) :
    Ends (fun next => next.expander.journal.opened = c.expander.journal.opened) (fun _ => True) (renameCloser c t) := by
  unfold renameCloser
  split
  · dsimp only
    split
    · rfl
    · trivial
  · rfl

theorem opened_renameClosers {c : Copying} {body : List Token}
    (ran : Run.each renameCloser ⟨e, []⟩ body = .ok c) : c.expander.journal.opened = e.journal.opened := by
  have ends : Ends (fun c => c.expander.journal.opened = e.journal.opened) (fun _ => True)
      (Run.each renameCloser ⟨e, []⟩ body) := by
    refine ends_each (fun _ (c : Copying) => c.expander.journal.opened = e.journal.opened) ?_ rfl
    intro c t _ same
    exact (opened_renameCloser c t).mono (fun _ later => later.trans same) fun _ failed => failed
  exact ends.ok ran

-- The only ways in which a token is gone through: it stays, or the copy of a body takes its place.
theorem Sound.unwrapToken_ok (sound : Sound foreign (t :: rest) p) (ran : unwrapToken limit p t = .ok q) :
    q = p.keep t ∨ ∃ m r c, t.kind = .reference r ∧ m ∈ p.expander.macros.entries ∧ Renamed p.expander m.body c ∧
      c.expander.journal.opened = p.expander.journal.opened ∧
      q = p.replaceBy (c.finished m t) (copyBody c.expander.nextId m.body c.label) := by
  unfold unwrapToken at ran
  split at ran
  · cases ran
    exact .inl rfl
  · rename_i m found
    split at ran
    · cases ran
    · obtain ⟨known, r, label, kind, _⟩ := invoked?_call (sound.orderly.regular t (by simp)) found
      obtain ⟨c, copying, renamed, expanded⟩ := expandMacro_eq sound.holds.custody.distinct m t
      rw [expanded] at ran
      cases ran
      exact .inr ⟨m, r, c, kind, known, renamed, opened_renameClosers copying, rfl⟩

namespace Following

theorem keep (following : Following ctx R) (p : Pass) (t : Token) (rest : List Token) :
    R foreign p.expander (p.output.toList ++ t :: rest) (p.keep t).expander ((p.keep t).output.toList ++ rest) := by
  have same : (p.keep t).output.toList ++ rest = p.output.toList ++ t :: rest := by simp [Pass.keep]
  rw [same]
  exact following.refl foreign p.expander _

theorem capture (following : Following ctx R) (sound : Sound foreign (t :: rest) p)
    (kind : t.kind = .macroDefinition name false) (fits : span.Fits rest) (ran : capture p t name span = .ok q) :
    R foreign p.expander (p.output.toList ++ t :: rest) q.expander (q.output.toList ++ span.rest) := by
  obtain rfl := capture_ok (sound.holds.unclaimed t (by simp) name kind) ran
  rw [Pass.replaceBy_append, List.append_assoc, List.cons_append]
  exact following.aside (following.captured sound.holds sound.orderly kind fits) rfl rfl rfl rfl

theorem unwrapToken (following : Following ctx R) (sound : Sound foreign (t :: rest) p)
    (ran : unwrapToken limit p t = .ok q) :
    R foreign p.expander (p.output.toList ++ t :: rest) q.expander (q.output.toList ++ rest) := by
  rcases sound.unwrapToken_ok ran with rfl | ⟨m, r, c, kind, known, renamed, opened, rfl⟩
  · exact following.keep p t rest
  · rw [Pass.replaceBy_append]
    exact following.aside (following.copied sound.holds kind known renamed opened) rfl rfl rfl rfl

theorem unwrap (following : Following ctx R) (holds : e.Holds (foreign ++ e.program)) (orderly : Orderly e.program)
    (ran : unwrap limit e = .ok q) : R foreign e e.program q.expander q.output.toList := by
  have loop {tokens : List Token} {p : Pass} (sound : Sound foreign tokens p)
      (ran : Run.each (Expander.unwrapToken limit) p tokens = .ok q) :
      R foreign p.expander (p.output.toList ++ tokens) q.expander q.output.toList := by
    induction tokens generalizing p with
    | nil =>
      cases ran
      rw [List.append_nil]
      exact following.refl _ _ _
    | cons t rest ih =>
      obtain ⟨middle, first, others⟩ := andThen_eq_ok ran
      exact following.trans (following.unwrapToken sound first) (ih ((unwrapToken_sound sound).ok first) others)
  rw [unwrap_eq] at ran
  have start : Sound foreign e.program { expander := e } := ⟨by simpa using holds, by simpa using orderly⟩
  simpa using loop start ran

end Following

-- What is asked of the expansion of one program while others wait.
def Covers (R : List Token → Expander → List Token → Expander → List Token → Prop) (f : Expander → Run Expander) :
    Prop :=
  ∀ foreign e after, e.Holds (foreign ++ e.program) → Orderly e.program → f e = .ok after →
    R foreign e e.program after after.program

namespace Following

theorem splice (following : Following ctx R) (covers : ∀ enter, down = some enter → Covers R enter)
    (sound : Sound foreign (t :: rest) p) (kind : t.kind = .inclusion name) (ran : splice ctx down t name p = .ok q) :
    R foreign p.expander (p.output.toList ++ t :: rest) q.expander (q.output.toList ++ rest) := by
  obtain ⟨path, enter, source, lexed, inner, _, below, stored, read, expanded, rfl⟩ := splice_ok ran
  have holds : ((p.expander.note (.including path.text t.location)).nested (ctx.disk.resolve path)).Holds
      (foreign ++ (p.output.toList ++ t :: rest)) :=
    sound.holds.aside rfl rfl rfl
  obtain ⟨lexedHolds, lexedOrderly, _⟩ := (read_holds ctx.settings source path.text holds).ok read
  have inside := covers enter below _ lexed inner lexedHolds lexedOrderly expanded
  rw [Pass.replaceBy_append]
  exact following.aside (following.spliced sound.holds kind stored read inside) rfl rfl rfl rfl

theorem rewrite (following : Following ctx R) (keeps : ∀ enter, down = some enter → Keeps enter)
    (covers : ∀ enter, down = some enter → Covers R enter) (sound : Sound foreign tokens p)
    (ran : rewrite ctx down tokens p = .ok q) :
    R foreign p.expander (p.output.toList ++ tokens) q.expander q.output.toList := by
  fun_induction Expander.rewrite ctx down tokens p with
  | case1 p =>
    cases ran
    rw [List.append_nil]
    exact following.refl _ _ _
  | case2 t rest p name kind ih =>
    obtain ⟨middle, first, others⟩ := andThen_eq_ok ran
    exact following.trans (following.splice covers sound kind first)
      (ih middle ((splice_sound keeps sound kind).ok first) others)
  | case3 t rest p name kind ih =>
    obtain ⟨middle, first, others⟩ := andThen_eq_ok ran
    obtain rfl := confirm_keep (sound.claimed kind) first
    exact following.trans (following.keep p t rest) (ih _ (sound_keep sound) others)
  | case4 t rest p name kind found missing => cases ran
  | case5 t rest p name kind opener unpaired => cases ran
  | case6 t rest p name kind span found ih =>
    obtain ⟨middle, first, others⟩ := andThen_eq_ok ran
    obtain ⟨_, _, ⟨_, missing⟩ | ⟨other, same, fits, taken⟩⟩ := definition_cases sound kind
    · rw [missing] at found
      cases found
    · rw [same] at found
      cases found
      exact following.trans (following.capture sound kind fits first) (ih middle (taken.ok first) others)
  | case7 t rest p _ _ _ ih => exact following.trans (following.keep p t rest) (ih (sound_keep sound) ran)

theorem settle (following : Following ctx R) (keeps : ∀ enter, down = some enter → Keeps enter)
    (covers : ∀ enter, down = some enter → Covers R enter) (passes : Nat) : Covers R (settle ctx down passes) := by
  induction passes with
  | zero =>
    intro foreign e after _ _ ran
    cases ran
  | succ passes ih =>
    intro foreign e after holds orderly ran
    have start : Sound foreign e.program { expander := e.countPass } :=
      ⟨holds.aside rfl rfl rfl, orderly⟩
    unfold Expander.settle at ran
    split at ran
    · cases ran
    · rename_i rewritten first
      have halfway := (rewrite_sound ctx keeps start).ok first
      obtain ⟨halfHolds, halfOrderly⟩ := halfway.result
      have early : R foreign e e.program rewritten.result rewritten.result.program := by
        have counted : R foreign e e.program e.countPass e.program :=
          following.aside (following.refl _ _ _) rfl rfl rfl rfl
        exact following.aside (following.trans counted (following.rewrite keeps covers start first)) rfl rfl rfl rfl
      split at ran
      · cases ran
      · rename_i unwrapped second
        obtain ⟨lastHolds, lastOrderly⟩ := ((unwrap_sound _ halfHolds halfOrderly).ok second).result
        have copied := following.unwrap halfHolds halfOrderly second
        have late : R foreign e e.program unwrapped.result unwrapped.result.program :=
          following.trans early (following.aside copied rfl rfl rfl rfl)
        dsimp only at ran
        split at ran
        · exact following.trans late (ih foreign _ after lastHolds lastOrderly ran)
        · cases ran
          exact following.aside late rfl rfl rfl rfl

-- What reaches over each action reaches over the whole expansion.
theorem expand (following : Following ctx R) (room : Nat) : Covers R (expand ctx room) := by
  induction room with
  | zero => exact following.settle (by simp) (by simp) _
  | succ room ih =>
    apply following.settle
    · intro enter below
      cases below
      exact expand_keeps ctx room
    · intro enter below
      cases below
      exact ih

-- An input is one text that is read and then expanded.
theorem input (following : Following ctx R) {input : Input} {journal : Journal}
    (ran : input.expand ctx { journal } = .ok e) : ∃ chain source file main, input.Gives ctx source file ∧
      ({ journal, chain } : Expander).read ctx.settings source file = .ok main ∧
      R [] main main.program e e.program := by
  obtain ⟨chain, source, file, given, processed⟩ := Input.expand_ok ran
  obtain ⟨main, read, expanded⟩ := andThen_eq_ok processed
  obtain ⟨holds, orderly, _⟩ := (read_holds ctx.settings source file (Input.holds_start journal chain)).ok read
  exact ⟨chain, source, file, main, given, read, following.expand _ [] main e holds orderly expanded⟩

end Following

-- Macros are added to those there are.
abbrev Grows : List Token → Expander → List Token → Expander → List Token → Prop :=
  fun _ e _ after _ => ∃ added, after.macros.entries = e.macros.entries ++ added

theorem following_grows (ctx : Context) : Following ctx Grows where
  refl _ _ _ := ⟨[], (List.append_nil _).symm⟩
  trans := by
    rintro _ _ _ _ _ _ _ ⟨one, first⟩ ⟨two, second⟩
    exact ⟨one ++ two, by rw [second, first, List.append_assoc]⟩
  aside grown _ macros _ _ := by
    obtain ⟨added, entries⟩ := grown
    exact ⟨added, by rw [macros, entries]⟩
  captured {foreign front rest e t name span} _ _ _ _ := ⟨[span.macroOf t name], rfl⟩
  copied {foreign front rest e t r m c} _ _ _ renamed _ := by
    have macros : (c.finished m t).macros = e.macros := renamed.macros_eq
    exact ⟨[], by rw [macros, List.append_nil]⟩
  spliced {foreign front rest e lexed inner t name path place source} holds _ _ ran inside := by
    have opened : ((e.note (.including path.text t.location)).nested place).Holds (foreign ++ (front ++ t :: rest)) :=
      holds.aside rfl rfl rfl
    have macros : lexed.macros = e.macros := ((read_holds ctx.settings source path.text opened).ok ran).2.2
    obtain ⟨added, entries⟩ := inside
    exact ⟨added, by rw [entries, macros]⟩

section

variable {front : List Token} {m : Macro} {c : Copying} {u : Token}

theorem mem_of_captured (foreign : List Token) (fits : span.Fits rest)
    (member : u ∈ foreign ++ (front ++ { t with kind := .macroDefinition name true } :: (span.gap ++ span.rest)) ++
      (captured e t name span).macros.bodies) :
    u = { t with kind := .macroDefinition name true } ∨ u ∈ foreign ++ (front ++ t :: rest) ++ e.macros.bodies := by
  have bodies : (captured e t name span).macros.bodies = e.macros.bodies ++ (span.macroOf t name).body :=
    MacroTable.bodies_enter e.macros (span.macroOf t name)
  have inside : u ∈ (span.macroOf t name).body → u ∈ span.inside := List.mem_of_mem_filter
  rw [bodies] at member
  rw [fits.parts]
  simp only [List.mem_append, List.mem_cons] at member ⊢
  tauto

theorem Renamed.mem_of_copied (foreign : List Token) (renamed : Renamed e m.body c) {copy : List Token}
    (member : u ∈ foreign ++ (front ++ copy ++ rest) ++ (c.finished m t).macros.bodies) :
    u ∈ copy ∨ u ∈ foreign ++ (front ++ t :: rest) ++ e.macros.bodies := by
  have macros : (c.finished m t).macros = e.macros := renamed.macros_eq
  rw [macros] at member
  simp only [List.mem_append, List.mem_cons] at member ⊢
  tauto

theorem Renamed.nextId_le (renamed : Renamed e m.body c) (t : Token) : e.nextId ≤ (c.finished m t).nextId := by
  change e.nextId ≤ c.expander.nextId + m.body.length
  rw [renamed.nextId_eq]
  exact Nat.le_add_right _ _

theorem Renamed.copy_fresh (renamed : Renamed e m.body c) {f : String → String}
    (member : u ∈ copyBody c.expander.nextId m.body f) : e.nextId ≤ u.id := by
  have ranged : u.id ∈ List.range' c.expander.nextId m.body.length := copyBody_ids ▸ List.mem_map_of_mem member
  rw [renamed.nextId_eq] at ranged
  exact (List.mem_range'_1.mp ranged).1

end

-- A property that every token has when it is read and that no action takes away.
structure Endures (ctx : Context) (Q : Token → Prop) : Prop where
  read {source : List Char} {file : String} {e lexed : Expander} :
    e.read ctx.settings source file = .ok lexed → ∀ t ∈ lexed.program, Q t
  captured {t : Token} {name : String} :
    t.kind = .macroDefinition name false → Q t → Q { t with kind := .macroDefinition name true }
  copied {t : Token} (id : Nat) (partner : Option Nat) (f : String → String) :
    Q t → Q { t with id, partner, kind := t.kind.mapLabel f }

namespace Endures

variable {Q : Token → Prop}

theorem following (endures : Endures ctx Q) : Following ctx fun _ e program after later =>
    (∀ t ∈ program ++ e.macros.bodies, Q t) → ∀ t ∈ later ++ after.macros.bodies, Q t where
  refl _ _ _ all := all
  trans first second all := second (first all)
  aside carried _ macros _ _ all := by
    rw [macros]
    exact carried all
  captured {foreign front rest e t name span} _ _ kind fits all := by
    intro u member
    rcases mem_of_captured [] fits member with rfl | there
    · exact endures.captured kind (all t (by simp))
    · exact all u there
  copied {foreign front rest e t r m c} _ _ known renamed _ all := by
    intro u member
    rcases renamed.mem_of_copied [] member with copy | there
    · obtain ⟨original, stored, id, partner, rfl⟩ := mem_copyBody copy
      exact endures.copied id partner _
        (all original (List.mem_append_right _ (List.mem_flatMap.mpr ⟨m, known, stored⟩)))
    · exact all u there
  spliced {foreign front rest e lexed inner t name path place source} holds _ _ ran inside all := by
    have opened : ((e.note (.including path.text t.location)).nested place).Holds (foreign ++ (front ++ t :: rest)) :=
      holds.aside rfl rfl rfl
    have macros : lexed.macros = e.macros := ((read_holds ctx.settings source path.text opened).ok ran).2.2
    have inner := inside fun u member => by
      rcases List.mem_append.mp member with new | stored
      · exact endures.read ran u new
      · exact all u (List.mem_append_right _ (macros ▸ stored))
    intro u member
    simp only [List.mem_append] at member inner
    rcases member with ((early | new) | late) | stored
    · exact all u (by simp [early])
    · exact inner u (.inl new)
    · exact all u (by simp [late])
    · exact inner u (.inr stored)

theorem input (endures : Endures ctx Q) {input : Input} {journal : Journal}
    (ran : input.expand ctx { journal } = .ok e) : ∀ t ∈ e.program, Q t := by
  obtain ⟨chain, source, file, main, _, read, carried⟩ := endures.following.input ran
  have macros : main.macros = {} :=
    ((read_holds ctx.settings source file (Input.holds_start journal chain)).ok read).2.2
  intro t member
  refine carried ?_ t (List.mem_append_left _ member)
  rw [macros]
  simpa [MacroTable.bodies] using endures.read read

end Endures

-- The same for a property that shows in the kind of a token.
structure Lasts (ctx : Context) (Q : TokenKind → Prop) : Prop where
  read {source : List Char} {file : String} {e lexed : Expander} :
    e.read ctx.settings source file = .ok lexed → ∀ t ∈ lexed.program, Q t.kind
  captured (name : String) : Q (.macroDefinition name true)
  relabelled {kind : TokenKind} (f : String → String) : Q kind → Q (kind.mapLabel f)

theorem Lasts.endures {Q : TokenKind → Prop} (lasts : Lasts ctx Q) : Endures ctx fun t => Q t.kind :=
  ⟨lasts.read, fun _ _ => lasts.captured _, fun _ _ f => lasts.relabelled f⟩

theorem Lasts.input {Q : TokenKind → Prop} (lasts : Lasts ctx Q) {input : Input} {journal : Journal}
    (ran : input.expand ctx { journal } = .ok e) : ∀ t ∈ e.program, Q t.kind := lasts.endures.input ran

end Expander

end RuneAsm
