import Mathlib
import RuneAsm.Proofs.Expansion

namespace RuneAsm

open Run

-- Expansion as substitution. A program is what is left of it without the bodies of its definitions, together with those
-- bodies; to expand it is to put the expanded body of a macro in the place of each word that names it. The passes of an
-- expansion come to the same, however deep the macros are nested and wherever they are defined.

-- The name that a bare word may call a macro by.
def TokenKind.called? : TokenKind → Option String
  | .reference r =>
    match r.target with
    | .named name => if r.form = .call then some name else none
    | .inline _ => none
  | _ => none

-- Only the labels of inline subroutines are passed through the function.
def TokenKind.mapInline (f : String → String) : TokenKind → TokenKind
  | .subroutineClose label => .subroutineClose (f label)
  | .reference r =>
    match r.target with
    | .inline label => .reference { r with target := .inline (label.map f) }
    | .named _ => .reference r
  | kind => kind

-- What is compared of a token: neither its serial number and partner nor whether its body has been taken out.
structure Face where
  kind : TokenKind
  text : String
  location : Location
deriving DecidableEq, Repr

namespace Face

def relabel (f : String → String) (face : Face) : Face := { face with kind := face.kind.mapInline f }

-- The same whatever labels the inline subroutines have.
def unlabelled (face : Face) : Face := face.relabel fun _ => ""

end Face

def TokenKind.uncaptured : TokenKind → TokenKind
  | .macroDefinition name _ => .macroDefinition name false
  | kind => kind

def Token.face (t : Token) : Face := ⟨t.kind.uncaptured, t.text, t.location⟩

def faces (tokens : List Token) : List Face := (tokens.filter (!·.isTransparent)).map Token.face

def closers (faces : List Face) : List String := faces.filterMap (·.kind.closerLabel?)

abbrev Bodies : Type := List (String × List Face)

-- The body that a token stands for.
def Bodies.named? (bodies : Bodies) (face : Face) : Option (List Face) := face.kind.called?.bind fun name => bodies.lookup name

-- Each use of a body gives other labels to its inline subroutines, different ones to different subroutines.
inductive Substitutes (bodies : Bodies) : List Face → List Face → Prop where
  | done : Substitutes bodies [] []
  | kept {face : Face} {rest out : List Face} (noMacro : bodies.named? face = none)
      (later : Substitutes bodies rest out) : Substitutes bodies (face :: rest) (face :: out)
  | replaced {face : Face} {body copy rest out : List Face} {f : String → String}
      (stands : bodies.named? face = some body) (apart : ((closers body).map f).Nodup)
      (inner : Substitutes bodies (body.map (Face.relabel f)) copy) (later : Substitutes bodies rest out) :
      Substitutes bodies (face :: rest) (copy ++ out)

namespace Substitutes

variable {bodies : Bodies} {early late out xs ys : List Face}

theorem split (whole : Substitutes bodies (early ++ late) out) :
    ∃ front back, out = front ++ back ∧ Substitutes bodies early front ∧ Substitutes bodies late back := by
  induction early generalizing out with
  | nil => exact ⟨[], out, rfl, .done, whole⟩
  | cons face early ih =>
    cases whole with
    | kept noMacro later =>
      obtain ⟨front, back, rfl, first, second⟩ := ih later
      exact ⟨face :: front, back, rfl, .kept noMacro first, second⟩
    | @replaced _ body copy _ out f stands apart inner later =>
      obtain ⟨front, back, rfl, first, second⟩ := ih later
      exact ⟨copy ++ front, back, by simp, .replaced stands apart inner first, second⟩

theorem unchanged (noMacros : ∀ face ∈ xs, bodies.named? face = none) : Substitutes bodies xs xs := by
  induction xs with
  | nil => exact .done
  | cons face rest ih =>
    exact .kept (noMacros face (by simp)) (ih fun other member => noMacros other (List.mem_cons_of_mem _ member))

end Substitutes

theorem called?_relabel (f : String → String) (face : Face) : (face.relabel f).kind.called? = face.kind.called? := by
  unfold Face.relabel
  cases kind : face.kind with
  | reference r => cases target : r.target <;> simp [TokenKind.mapInline, TokenKind.called?, target]
  | _ => rfl

theorem unlabelled_relabel (f : String → String) (face : Face) : (face.relabel f).unlabelled = face.unlabelled := by
  unfold Face.unlabelled Face.relabel
  cases kind : face.kind with
  | reference r => cases target : r.target <;> simp [TokenKind.mapInline, target, Function.comp_def]
  | _ => rfl

-- All ways to substitute give the same tokens but for the labels of inline subroutines.
theorem Substitutes.agree {bodies : Bodies} {xs xs' out out' : List Face} (first : Substitutes bodies xs out)
    (second : Substitutes bodies xs' out') (same : xs.map Face.unlabelled = xs'.map Face.unlabelled) :
    out.map Face.unlabelled = out'.map Face.unlabelled := by
  have named {face face' : Face} (equal : face.unlabelled = face'.unlabelled) :
      bodies.named? face = bodies.named? face' := by
    unfold Bodies.named?
    have calls : face.unlabelled.kind.called? = face'.unlabelled.kind.called? := by rw [equal]
    rw [← called?_relabel (fun _ => "") face, ← called?_relabel (fun _ => "") face']
    exact congrArg (Option.bind · _) calls
  induction first generalizing xs' out' with
  | done =>
    rw [List.map_nil, eq_comm, List.map_eq_nil_iff] at same
    subst same
    cases second
    rfl
  | @kept face rest out noMacro later ih =>
    cases second with
    | done => cases same
    | @kept face' rest' out' noMacro' later' =>
      obtain ⟨here, more⟩ := List.cons.inj same
      rw [List.map_cons, List.map_cons, ih later' more, here]
    | replaced stands' _ _ _ =>
      rw [← named (List.cons.inj same).1, noMacro] at stands'
      cases stands'
  | @replaced face body copy rest out f stands apart inner later innerIh laterIh =>
    cases second with
    | done => cases same
    | kept noMacro' _ =>
      rw [← named (List.cons.inj same).1, stands] at noMacro'
      cases noMacro'
    | replaced stands' apart' inner' later' =>
      obtain ⟨here, more⟩ := List.cons.inj same
      rw [← named here, stands] at stands'
      cases stands'
      have copies := innerIh inner' (by simp [Function.comp_def, unlabelled_relabel])
      rw [List.map_append, List.map_append, copies, laterIh later' more]

-- One pass replaces the words that are there and leaves those in the copies for the next.
inductive OnePass (bodies : Bodies) : List Face → List Face → Prop where
  | done : OnePass bodies [] []
  | kept {face : Face} {rest out : List Face} (noMacro : bodies.named? face = none)
      (later : OnePass bodies rest out) : OnePass bodies (face :: rest) (face :: out)
  | replaced {face : Face} {body rest out : List Face} {f : String → String}
      (stands : bodies.named? face = some body) (apart : ((closers body).map f).Nodup)
      (later : OnePass bodies rest out) : OnePass bodies (face :: rest) (body.map (Face.relabel f) ++ out)

theorem OnePass.unchanged {bodies : Bodies} {xs : List Face} (noMacros : ∀ face ∈ xs, bodies.named? face = none) :
    OnePass bodies xs xs := by
  induction xs with
  | nil => exact .done
  | cons face rest ih =>
    exact .kept (noMacros face (by simp)) (ih fun other member => noMacros other (List.mem_cons_of_mem _ member))

theorem OnePass.substitutes {bodies : Bodies} {xs ys out : List Face} (pass : OnePass bodies xs ys)
    (after : Substitutes bodies ys out) : Substitutes bodies xs out := by
  induction pass generalizing out with
  | done => exact after
  | kept noMacro later ih =>
    cases after with
    | kept _ after => exact .kept noMacro (ih after)
    | replaced stands _ _ _ =>
      rw [noMacro] at stands
      cases stands
  | replaced stands apart later ih =>
    obtain ⟨copy, rest, rfl, inner, outer⟩ := after.split
    exact .replaced stands apart inner (ih outer)

-- A program without the brackets that follow its definitions, and what these enclose, under the names defined.
structure Outline where
  kept : List Token
  bodies : List (String × List Token)

def Outline.named (o : Outline) : Bodies := o.bodies.map fun entry => (entry.1, faces entry.2)

namespace Expander

def outline (tokens : List Token) : Outline :=
  match tokens with
  | [] => ⟨[], []⟩
  | t :: rest =>
    match t.kind with
    | .macroDefinition name false =>
      match _found : bodySpan rest with
      | .ok span => ⟨t :: (outline span.rest).kept, (name, span.inside) :: (outline span.rest).bodies⟩
      | .error _ => ⟨t :: (outline rest).kept, (outline rest).bodies⟩
    | _ => ⟨t :: (outline rest).kept, (outline rest).bodies⟩
termination_by tokens.length
decreasing_by
  all_goals first
    | exact Nat.lt_succ_self _
    | exact Nat.lt_succ_of_lt (bodySpan_rest_lt _found)

variable {ctx : Context} {down : Option (Expander → Run Expander)} {macros : MacroTable} {bodies : Bodies}
variable {e : Expander} {p q : Pass} {t : Token} {tokens foreign body rest : List Token} {name : String} {f : String → String}

@[simp] theorem faces_append (early late : List Token) : faces (early ++ late) = faces early ++ faces late := by
  simp [faces]

theorem faces_transparent (transparent : ∀ t ∈ tokens, t.isTransparent = true) : faces tokens = [] := by
  simpa [faces] using transparent

theorem faces_solid (solid : t.isTransparent = false) : faces [t] = [t.face] := by simp [faces, solid]

theorem closers_faces : closers (faces tokens) = closerLabels tokens := by
  unfold closers faces closerLabels
  rw [List.filterMap_map, List.filterMap_filter]
  refine List.filterMap_congr ?_
  intro t _
  cases kind : t.kind <;> simp [Token.isTransparent, TokenKind.isTransparent, Token.face, TokenKind.uncaptured,
    TokenKind.closerLabel?, kind]

-- The labels of a regular token that are no words are those of inline subroutines.
theorem mapLabel_uncaptured (fixes : ∀ label, Plain label → f label = label) {kind : TokenKind}
    (regular : kind.Regular) : (kind.mapLabel f).uncaptured = kind.uncaptured.mapInline f := by
  cases kind with
  | parentLabel label implied => simp [TokenKind.mapLabel, TokenKind.uncaptured, TokenKind.mapInline, fixes label regular.1]
  | childLabel label => simp [TokenKind.mapLabel, TokenKind.uncaptured, TokenKind.mapInline, fixes label regular]
  | reference r =>
    have suits := regular.2
    cases target : r.target with
    | named label =>
      rw [target] at suits
      simp only [TokenKind.mapLabel, TokenKind.uncaptured, TokenKind.mapInline, target, fixes label suits.1]
      rw [← target]
    | «inline» label => simp only [TokenKind.mapLabel, TokenKind.uncaptured, TokenKind.mapInline, target]
  | _ => rfl

theorem faces_copyBody (base : Nat) (fixes : ∀ label, Plain label → f label = label)
    (serials : (body.map (·.id)).Nodup) (regular : ∀ t ∈ body, t.kind.Regular) :
    faces (copyBody base body f) = (faces body).map (Face.relabel f) := by
  have transparent : ((!·.isTransparent) ∘ copyToken base body f) = (!·.isTransparent) := by
    funext t
    simp [Token.isTransparent, copyToken, mapLabel_isTransparent]
  rw [copyBody_eq_map serials]
  unfold faces
  rw [List.filter_map, transparent, List.map_map, List.map_map]
  refine List.map_congr_left ?_
  intro t member
  simp [Token.face, Face.relabel, copyToken, mapLabel_uncaptured fixes (regular t (List.mem_of_mem_filter member))]

theorem invoked?_eq (regular : t.kind.Regular) : invoked? macros t = t.kind.called?.bind macros.find? := by
  unfold invoked? TokenKind.called?
  cases kind : t.kind with
  | reference r =>
    rw [kind] at regular
    have suits := regular.2
    cases target : r.target with
    | named label => by_cases call : r.form = .call <;> simp [Target.label?, target, call]
    | «inline» label =>
      rw [target] at suits
      simp [suits.2, target]
  | _ => rfl

def Stores (macros : MacroTable) (bodies : Bodies) : Prop :=
  ∀ name, (macros.find? name).map (fun m => faces m.body) = bodies.lookup name

theorem Stores.named? (stores : Stores macros bodies) (regular : t.kind.Regular) :
    bodies.named? t.face = (invoked? macros t).map (fun m => faces m.body) := by
  have called : t.face.kind.called? = t.kind.called? := by
    simp only [Token.face]
    cases t.kind <;> rfl
  rw [invoked?_eq regular]
  unfold Bodies.named?
  rw [called]
  cases t.kind.called? with
  | none => rfl
  | some name => exact (stores name).symm

theorem named?_faces (stores : Stores macros bodies) (regular : ∀ t ∈ tokens, t.kind.Regular)
    (unused : ∀ t ∈ tokens, invoked? macros t = none) : ∀ face ∈ faces tokens, bodies.named? face = none := by
  intro face member
  obtain ⟨t, solid, rfl⟩ := List.mem_map.mp member
  have there := List.mem_of_mem_filter solid
  rw [stores.named? (regular t there), unused t there]
  rfl

-- Nothing is left for the first half of a pass to do with the token.
def Quiet (t : Token) : Prop := (∀ name, t.kind ≠ .inclusion name) ∧ ∀ name, t.kind ≠ .macroDefinition name false

theorem quiet_copyBody (base : Nat) (f : String → String) (serials : (body.map (·.id)).Nodup)
    (quiet : ∀ t ∈ body, Quiet t) : ∀ t ∈ copyBody base body f, Quiet t := by
  rw [copyBody_eq_map serials]
  intro copied member
  obtain ⟨t, there, rfl⟩ := List.mem_map.mp member
  obtain ⟨noInclusion, noDefinition⟩ := quiet t there
  refine ⟨?_, ?_⟩
  · intro name kind
    exact noInclusion name (mapLabel_inclusion.mp kind)
  · intro name kind
    exact noDefinition name (mapLabel_macroDefinition.mp kind)

theorem unwrapToken_faces {limit : Int} (sound : Sound foreign (t :: rest) p) (stores : Stores p.expander.macros bodies)
    (quiet : Quiet t) (quietBodies : ∀ u ∈ p.expander.macros.bodies, Quiet u) (ran : unwrapToken limit p t = .ok q) :
    ∃ new, q.output.toList = p.output.toList ++ new ∧ q.expander.macros = p.expander.macros ∧ (∀ u ∈ new, Quiet u) ∧
      ∀ xs ys, OnePass bodies xs ys → OnePass bodies (faces [t] ++ xs) (faces new ++ ys) := by
  have regular := sound.orderly.regular t (by simp)
  have named := stores.named? regular
  unfold unwrapToken at ran
  cases found : invoked? p.expander.macros t with
  | none =>
    rw [found] at ran named
    cases ran
    refine ⟨[t], by simp [Pass.keep], rfl, by simpa using quiet, ?_⟩
    intro xs ys later
    cases transparent : t.isTransparent with
    | true => rwa [faces_transparent (by simpa using transparent)]
    | false =>
      rw [faces_solid transparent]
      exact .kept named later
  | some m =>
    rw [found] at ran named
    dsimp only at ran
    split at ran
    · cases ran
    · obtain ⟨known, r, label, kind, _⟩ := invoked?_call regular found
      obtain ⟨c, _, renamed, expanded⟩ := expandMacro_eq sound.holds.custody.distinct m t
      have inner := sound.holds.body_custody known
      have orderly := (sound.holds.stored m known).1
      rw [expanded] at ran
      cases ran
      refine ⟨copyBody c.expander.nextId m.body c.label, by simp [Pass.replaceBy], renamed.macros_eq, ?_, ?_⟩
      · refine quiet_copyBody _ _ inner.serials fun u member => quietBodies u ?_
        exact List.mem_flatMap.mpr ⟨m, known, member⟩
      · intro xs ys later
        have solid : t.isTransparent = false := by simp [Token.isTransparent, TokenKind.isTransparent, kind]
        rw [faces_solid solid,
          faces_copyBody _ (fun _ plain => renamed.label_plain orderly inner.labels plain) inner.serials orderly.regular]
        refine .replaced named ?_ later
        rw [closers_faces, renamed.map_label inner.labels, List.map_reverse]
        exact List.nodup_reverse.mpr renamed.separate

theorem each_unwrapToken_faces {limit : Int} (sound : Sound foreign tokens p) (stores : Stores p.expander.macros bodies)
    (quiet : ∀ u ∈ tokens, Quiet u) (quietBodies : ∀ u ∈ p.expander.macros.bodies, Quiet u)
    (ran : Run.each (unwrapToken limit) p tokens = .ok q) :
    ∃ new, q.output.toList = p.output.toList ++ new ∧ q.expander.macros = p.expander.macros ∧ (∀ u ∈ new, Quiet u) ∧
      OnePass bodies (faces tokens) (faces new) := by
  induction tokens generalizing p with
  | nil =>
    cases ran
    exact ⟨[], by simp, rfl, by simp, .done⟩
  | cons t rest ih =>
    obtain ⟨middle, first, later⟩ := andThen_eq_ok ran
    obtain ⟨new, written, macros, quietNew, pass⟩ :=
      unwrapToken_faces sound stores (quiet t List.mem_cons_self) quietBodies first
    obtain ⟨more, writtenMore, macrosMore, quietMore, passMore⟩ := ih ((unwrapToken_sound sound).ok first)
      (macros ▸ stores) (fun u member => quiet u (List.mem_cons_of_mem _ member)) (macros ▸ quietBodies) later
    refine ⟨new ++ more, by simp [written, writtenMore], macrosMore.trans macros, ?_, ?_⟩
    · intro u member
      exact (List.mem_append.mp member).elim (quietNew u) (quietMore u)
    · rw [← List.singleton_append, faces_append, faces_append]
      exact pass _ _ passMore

-- An expansion in which all bodies have been taken out. The foreign tokens belong to programs that wait for it.
structure Ready (foreign : List Token) (bodies : Bodies) (e : Expander) : Prop where
  holds : e.Holds (foreign ++ e.program)
  orderly : Orderly e.program
  stores : Stores e.macros bodies
  quiet : ∀ t ∈ e.program, Quiet t
  quietBodies : ∀ t ∈ e.macros.bodies, Quiet t

theorem unwrap_ready {limit : Int} (ready : Ready foreign bodies e) (ran : unwrap limit e = .ok q) :
    Ready foreign bodies q.result ∧ q.result.macros = e.macros ∧
      OnePass bodies (faces e.program) (faces q.result.program) := by
  obtain ⟨holds, orderly⟩ := ((unwrap_sound limit ready.holds ready.orderly).ok ran).result
  have start : Sound foreign e.program { expander := e } := ⟨ready.holds, ready.orderly⟩
  rw [unwrap_eq] at ran
  obtain ⟨new, written, macros, quietNew, pass⟩ :=
    each_unwrapToken_faces start ready.stores ready.quiet ready.quietBodies ran
  have program : q.result.program = new := by simpa [Pass.result] using written
  exact ⟨⟨holds, orderly, macros ▸ ready.stores, program ▸ quietNew, macros ▸ ready.quietBodies⟩, macros, program ▸ pass⟩

theorem settle_succ {passes : Nat} {after : Expander} (ran : settle ctx down (passes + 1) e = .ok after) :
    ∃ rewritten unwrapped, rewrite ctx down e.program { expander := e.countPass } = .ok rewritten ∧
      unwrap ctx.settings.maxExpansions rewritten.result = .ok unwrapped ∧
      (settle ctx down passes unwrapped.result = .ok after ∨
        unwrapped.changed = false ∧ after.program = unwrapped.result.program ∧
          after.macros = unwrapped.result.macros) := by
  unfold settle at ran
  split at ran
  · cases ran
  · rename_i rewritten first
    split at ran
    · cases ran
    · rename_i unwrapped second
      dsimp only at ran
      refine ⟨rewritten, unwrapped, first, second, ?_⟩
      split at ran
      · exact .inl ran
      · rename_i unchanged
        cases ran
        exact .inr ⟨by simp_all, rfl, rfl⟩

theorem rewrite_quiet (sound : Sound foreign tokens p) (quiet : ∀ t ∈ tokens, Quiet t) (ran : rewrite ctx down tokens p = .ok q) :
    q = { p with output := p.output ++ tokens } := by
  fun_induction rewrite ctx down tokens p with
  | case1 p =>
    cases ran
    simp
  | case2 t rest p name kind ih => exact absurd kind ((quiet t List.mem_cons_self).1 name)
  | case3 t rest p name kind ih =>
    obtain ⟨middle, first, later⟩ := andThen_eq_ok ran
    rw [confirm_keep (sound.claimed kind) first] at later
    rw [ih _ (sound_keep sound) (fun u member => quiet u (List.mem_cons_of_mem _ member)) later]
    simp [Pass.keep]
  | case4 t rest p name kind found missing => exact absurd kind ((quiet t List.mem_cons_self).2 name)
  | case5 t rest p name kind opener unpaired => exact absurd kind ((quiet t List.mem_cons_self).2 name)
  | case6 t rest p name kind span found ih => exact absurd kind ((quiet t List.mem_cons_self).2 name)
  | case7 t rest p _ _ _ ih =>
    rw [ih (sound_keep sound) (fun u member => quiet u (List.mem_cons_of_mem _ member)) ran]
    simp [Pass.keep]

-- What is left to do once all bodies have been taken out: words are replaced, and no macro is added.
structure Completes (bodies : Bodies) (e after : Expander) : Prop where
  substitutes : Substitutes bodies (faces e.program) (faces after.program)
  macros : after.macros = e.macros

-- After the second half of a pass the passes go on, or there was nothing to replace.
theorem unwrapped_completes {limit : Int} {unwrapped : Pass} {after : Expander} (ready : Ready foreign bodies e)
    (ran : unwrap limit e = .ok unwrapped)
    (finish : Completes bodies unwrapped.result after ∨
      unwrapped.changed = false ∧ after.program = unwrapped.result.program ∧ after.macros = unwrapped.result.macros) :
    Completes bodies e after := by
  rcases finish with later | ⟨unchanged, program, macros⟩
  · obtain ⟨_, same, pass⟩ := unwrap_ready ready ran
    exact ⟨pass.substitutes later.substitutes, later.macros.trans same⟩
  · obtain ⟨same, unused⟩ := unwrap_unchanged ran unchanged
    refine ⟨?_, by rw [macros, same]⟩
    rw [program, same]
    exact .unchanged (named?_faces ready.stores ready.orderly.regular unused)

theorem settle_completes {passes : Nat} {after : Expander} (ready : Ready foreign bodies e)
    (ran : settle ctx down passes e = .ok after) : Completes bodies e after := by
  induction passes generalizing e with
  | zero => cases ran
  | succ passes ih =>
    obtain ⟨rewritten, unwrapped, first, second, finish⟩ := settle_succ ran
    have start : Sound foreign e.program { expander := e.countPass } := ⟨ready.holds.aside rfl rfl rfl, ready.orderly⟩
    have same := rewrite_quiet start ready.quiet first
    have program : rewritten.result.program = e.program := by simp [same, Pass.result]
    have halfway : Ready foreign bodies rewritten.result := by
      refine ⟨?_, program ▸ ready.orderly, ?_, program ▸ ready.quiet, ?_⟩
      · rw [program, same]
        exact ready.holds.aside rfl rfl rfl
      · rw [same]
        exact ready.stores
      · rw [same]
        exact ready.quietBodies
    have done := unwrapped_completes halfway second (finish.imp_left (ih (unwrap_ready halfway second).1))
    exact ⟨program ▸ done.substitutes, done.macros.trans (by rw [same]; rfl)⟩

theorem outline_definition {span : BodySpan} (kind : t.kind = .macroDefinition name false)
    (found : bodySpan rest = .ok span) : outline (t :: rest) =
      ⟨t :: (outline span.rest).kept, (name, span.inside) :: (outline span.rest).bodies⟩ := by
  rw [outline]
  split <;> simp_all
  split <;> simp_all

theorem outline_keep (noDefinition : ∀ name, t.kind ≠ .macroDefinition name false) :
    outline (t :: rest) = ⟨t :: (outline rest).kept, (outline rest).bodies⟩ := by
  rw [outline]
  split <;> simp_all

-- What the first half of the first pass has done with the tokens, from one state to the other.
structure TakenOut (p : Pass) (tokens : List Token) (q : Pass) : Prop where
  written : faces q.output.toList = faces p.output.toList ++ faces (outline tokens).kept
  macros : q.expander.macros.entries.map (fun m => (m.name, m.body)) =
    p.expander.macros.entries.map (fun m => (m.name, m.body)) ++
      (outline tokens).bodies.map (fun entry => (entry.1, entry.2.filter (!·.isTransparent)))
  quiet : ∀ t ∈ q.output.toList, t ∈ p.output.toList ∨ Quiet t

theorem TakenOut.keep (after : TakenOut (p.keep t) rest q) (quiet : Quiet t) : TakenOut p (t :: rest) q := by
  have kept : (p.keep t).output.toList = p.output.toList ++ [t] := by simp [Pass.keep]
  refine ⟨?_, ?_, ?_⟩
  · rw [after.written, kept, outline_keep quiet.2, faces_append, List.append_assoc, ← faces_append]
    rfl
  · rw [outline_keep quiet.2]
    exact after.macros
  · intro u member
    rcases after.quiet u member with before | fresh
    · rw [kept] at before
      rcases List.mem_append.mp before with old | here
      · exact .inl old
      · exact .inr (List.mem_singleton.mp here ▸ quiet)
    · exact .inr fresh

theorem face_captured (kind : t.kind = .macroDefinition name false) :
    Token.face { t with kind := .macroDefinition name true } = t.face := by
  simp [Token.face, kind, TokenKind.uncaptured]

theorem TakenOut.capture {span : BodySpan}
    (later : TakenOut (p.replaceBy (captured p.expander t name span)
      ({ t with kind := .macroDefinition name true } :: span.gap)) span.rest q)
    (kind : t.kind = .macroDefinition name false) (found : bodySpan rest = .ok span)
    (gap : ∀ u ∈ span.gap, isGap u = true) : TakenOut p (t :: rest) q := by
  have transparent : ∀ u ∈ span.gap, u.isTransparent = true := by
    intro u member
    have both := gap u member
    rw [isGap, Bool.and_eq_true] at both
    exact both.1
  have definition : faces [{ t with kind := .macroDefinition name true }] = faces [t] := by
    rw [faces_solid rfl, faces_solid (by simp [Token.isTransparent, TokenKind.isTransparent, kind]), face_captured kind]
  have replaced (after : Expander) (new : List Token) :
      (p.replaceBy after new).output.toList = p.output.toList ++ new := by simp [Pass.replaceBy]
  refine ⟨?_, ?_, ?_⟩
  · rw [later.written, replaced, outline_definition kind found, ← List.singleton_append, faces_append, faces_append,
      definition, faces_transparent transparent, List.append_nil, List.append_assoc, ← faces_append]
    rfl
  · rw [later.macros, outline_definition kind found]
    simp [Pass.replaceBy, captured, Expander.note, BodySpan.macroOf, MacroTable.enter]
  · intro u member
    rcases later.quiet u member with before | fresh
    · rw [replaced] at before
      rcases List.mem_append.mp before with old | new
      · exact .inl old
      · right
        rcases List.mem_cons.mp new with rfl | inGap
        · exact ⟨by simp, by simp⟩
        · have blank := transparent u inGap
          refine ⟨?_, ?_⟩ <;> intro other is <;> rw [Token.isTransparent, is] at blank <;> cases blank
    · exact .inr fresh

end Expander

end RuneAsm
