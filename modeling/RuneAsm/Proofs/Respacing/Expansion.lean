import Mathlib
import RuneAsm.Proofs.Respacing.Reading
import RuneAsm.Proofs.Respacing.Shapes

namespace RuneAsm

open Run

-- Two programs that agree but for spacing and the labels of inline subroutines are expanded alike, pass by pass. The
-- same definitions are taken out, the same invocations replaced, and copies of inline subroutines get the same numbers.

variable {σ : String → String}

namespace Expander

variable {ctx : Context} {down : Option (Expander → Run Expander)} {macros macros' later later' : MacroTable}
variable {t t' : Token} {tokens tokens' rest rest' : List Token} {p p' : Pass} {e e' : Expander} {name : String}

-- A captured definition has to be the one in the table on both sides or on neither, as copies are not.
structure Twin (σ : String → String) (macros macros' : MacroTable) (t t' : Token) : Prop where
  kind : t'.kind = t.kind.mapLabel σ
  noInclusion : ∀ name, t.kind ≠ .inclusion name
  captured : ∀ name, t.kind = .macroDefinition name true →
    ∃ m m', macros.find? name = some m ∧ macros'.find? name = some m' ∧ (m.id = t.id ↔ m'.id = t'.id)

abbrev Twins (σ : String → String) (macros macros' : MacroTable) (tokens tokens' : List Token) : Prop :=
  List.Forall₂ (Twin σ macros macros') (unspaced tokens) (unspaced tokens')

theorem Twin.mono (twin : Twin σ macros macros' t t') (grows : macros.Within later) (grows' : macros'.Within later') :
    Twin σ later later' t t' := by
  refine ⟨twin.kind, twin.noInclusion, ?_⟩
  intro name kind
  obtain ⟨m, m', found, found', same⟩ := twin.captured name kind
  exact ⟨m, m', grows name m found, grows' name m' found', same⟩

theorem Twin.isSpacing (twin : Twin σ macros macros' t t') : t'.kind.isSpacing = t.kind.isSpacing := by
  rw [twin.kind, mapLabel_isSpacing]

theorem Twin.isTransparent (twin : Twin σ macros macros' t t') : t'.isTransparent = t.isTransparent := by
  rw [Token.isTransparent, twin.kind]
  exact mapLabel_isTransparent

theorem Twin.shape (twin : Twin σ macros macros' t t') : SameShape t t' := by
  obtain ⟨kind, _, _⟩ := twin
  refine ⟨?_, ?_, ?_, ?_⟩
  · rw [kind, mapLabel_closer?]
  · rw [kind, mapLabel_closes?]
  · rw [kind, mapLabel_opensBody]
  · unfold isGap Token.isTransparent
    rw [kind, mapLabel_isTransparent]
    simp only [ne_eq, ← TokenKind.closer?_eq_square, mapLabel_closer?]

structure MacroLike (related : Token → Token → Prop) (m m' : Macro) : Prop where
  name : m'.name = m.name
  body : List.Forall₂ related m.body m'.body

structure Like (σ : String → String) (e e' : Expander) : Prop where
  symbols : SymbolTable.Like σ e.symbols e'.symbols
  macros : List.Forall₂ (MacroLike (Twin σ e.macros e'.macros)) e.macros.entries e'.macros.entries
  copies : e'.copies = e.copies
  expansions : e'.stats.expansions = e.stats.expansions

-- Two passes with what is still to come of either program.
structure Abreast (σ : String → String) (rest rest' : List Token) (p p' : Pass) : Prop where
  expander : Like σ p.expander p'.expander
  output : Twins σ p.expander.macros p'.expander.macros p.output.toList p'.output.toList
  ahead : Twins σ p.expander.macros p'.expander.macros rest rest'
  changed : p'.changed = p.changed
  sound : Sound [] rest p
  sound' : Sound [] rest' p'

theorem find?_like {related : Token → Token → Prop}
    (like : List.Forall₂ (MacroLike related) macros.entries macros'.entries) (name : String) :
    macros.find? name = none ∧ macros'.find? name = none ∨
      ∃ m m', macros.find? name = some m ∧ macros'.find? name = some m' ∧ MacroLike related m m' := by
  unfold MacroTable.find?
  obtain ⟨entries⟩ := macros
  obtain ⟨entries'⟩ := macros'
  replace like : List.Forall₂ (MacroLike related) entries entries' := like
  induction like with
  | nil => exact .inl ⟨rfl, rfl⟩
  | @cons m m' _ _ first _ ih =>
    by_cases here : m.name = name
    · exact .inr ⟨m, m', by simp [here], by simp [first.name, here], first⟩
    · simpa [here, first.name] using ih

namespace Abreast

theorem passLeft (abreast : Abreast σ (t :: rest) rest' p p') (spacing : t.kind.isSpacing = true) :
    Abreast σ rest rest' (p.keep t) p' := by
  have written : unspaced (p.keep t).output.toList = unspaced p.output.toList := by
    simp [Pass.keep, unspaced, spacing]
  refine ⟨abreast.expander, ?_, ?_, abreast.changed, sound_keep abreast.sound, abreast.sound'⟩
  · rw [Twins, written]
    exact abreast.output
  · have agree := abreast.ahead
    rwa [Twins, unspaced_cons_of_spacing rest spacing] at agree

theorem passRight (abreast : Abreast σ rest (t' :: rest') p p') (spacing : t'.kind.isSpacing = true) :
    Abreast σ rest rest' p (p'.keep t') := by
  have written : unspaced (p'.keep t').output.toList = unspaced p'.output.toList := by
    simp [Pass.keep, unspaced, spacing]
  refine ⟨abreast.expander, ?_, ?_, abreast.changed, abreast.sound, sound_keep abreast.sound'⟩
  · rw [Twins, written]
    exact abreast.output
  · have agree := abreast.ahead
    rwa [Twins, unspaced_cons_of_spacing rest' spacing] at agree

theorem heads (abreast : Abreast σ (t :: rest) (t' :: rest') p p') (solid : t.kind.isSpacing = false)
    (solid' : t'.kind.isSpacing = false) : Twin σ p.expander.macros p'.expander.macros t t' ∧
      Twins σ p.expander.macros p'.expander.macros rest rest' := by
  have agree := abreast.ahead
  rw [Twins, unspaced_cons_of_solid rest solid, unspaced_cons_of_solid rest' solid'] at agree
  cases agree with
  | cons first later => exact ⟨first, later⟩

-- What has no counterpart is spacing.
theorem spacing_left (abreast : Abreast σ (t :: rest) [] p p') : t.kind.isSpacing = true := by
  by_contra solid
  have agree := abreast.ahead
  rw [Twins, unspaced_cons_of_solid rest (by simpa using solid)] at agree
  cases agree

theorem spacing_right (abreast : Abreast σ [] (t' :: rest') p p') : t'.kind.isSpacing = true := by
  by_contra solid
  have agree := abreast.ahead
  rw [Twins, unspaced_cons_of_solid rest' (by simpa using solid)] at agree
  cases agree

theorem keep (abreast : Abreast σ (t :: rest) (t' :: rest') p p') (solid : t.kind.isSpacing = false)
    (solid' : t'.kind.isSpacing = false) : Abreast σ rest rest' (p.keep t) (p'.keep t') := by
  obtain ⟨twin, later⟩ := abreast.heads solid solid'
  refine ⟨abreast.expander, ?_, later, abreast.changed, sound_keep abreast.sound, sound_keep abreast.sound'⟩
  have written := List.rel_append abreast.output (List.Forall₂.cons twin .nil)
  simpa [Twins, Pass.keep, unspaced, solid, solid'] using written

end Abreast

theorem solid_body (agree : Twins σ macros macros' tokens tokens') :
    List.Forall₂ (Twin σ macros macros') (tokens.filter (!·.isTransparent)) (tokens'.filter (!·.isTransparent)) := by
  have covered (l : List Token) : (unspaced l).filter (!·.isTransparent) = l.filter (!·.isTransparent) := by
    rw [unspaced, List.filter_filter]
    refine List.filter_congr ?_
    intro t _
    cases kind : t.kind <;> simp [Token.isTransparent, TokenKind.isTransparent, TokenKind.isSpacing, kind]
  rw [← covered tokens, ← covered tokens']
  refine List.rel_filter ?_ agree
  intro t t' twin
  simp [twin.isTransparent]

variable {span span' : BodySpan}

theorem twin_captured {u u' : Token} (twin : Twin σ e.macros e'.macros u u') :
    Twin σ (captured e t name span).macros (captured e' t' name span').macros u u' :=
  twin.mono (MacroTable.within_enter _ _) (MacroTable.within_enter _ _)

-- The body that was taken out belongs to both tables from then on.
theorem captured_like (renames : Renaming σ) (like : Like σ e e') (t t' : Token) (name : String)
    (spans : span.Like (Twin σ e.macros e'.macros) span') :
    Like σ (captured e t name span) (captured e' t' name span') := by
  have label : span'.closer.kind.label? = span.closer.kind.label?.map σ := by
    rw [spans.closer.kind, mapLabel_label?]
  refine ⟨?_, ?_, like.copies, like.expansions⟩
  · unfold captured Expander.note
    dsimp only
    rw [label]
    cases span.closer.kind.label? with
    | none => exact like.symbols
    | some closing => exact like.symbols.erase renames closing
  · refine List.rel_append (like.macros.imp ?_)
      (.cons ⟨rfl, (solid_body spans.inside).imp fun _ _ => twin_captured⟩ .nil)
    intro m m' same
    exact ⟨same.name, same.body.imp fun _ _ => twin_captured⟩

theorem capture_alike (renames : Renaming σ) (abreast : Abreast σ (t :: rest) (t' :: rest') p p')
    (kind : t.kind = .macroDefinition name false) (kind' : t'.kind = .macroDefinition name false)
    (spans : span.Like (Twin σ p.expander.macros p'.expander.macros) span')
    (sound : Ends (Sound [] span.rest) (Failure.Within faults) (capture p t name span))
    (sound' : Ends (Sound [] span'.rest) (Failure.Within faults) (capture p' t' name span')) :
    Alike (Abreast σ span.rest span'.rest) (capture p t name span) (capture p' t' name span') := by
  rcases find?_like abreast.expander.macros name with ⟨new, new'⟩ | ⟨m, m', found, found', _⟩
  · rw [capture_eq new] at sound ⊢
    rw [capture_eq new'] at sound' ⊢
    have definition : Twin σ (captured p.expander t name span).macros (captured p'.expander t' name span').macros
        { t with kind := .macroDefinition name true } { t' with kind := .macroDefinition name true } := by
      refine ⟨rfl, by simp, ?_⟩
      rintro _ ⟨⟩
      refine ⟨span.macroOf t name, span'.macroOf t' name, ?_, ?_, iff_of_true rfl rfl⟩
      · exact (MacroTable.find?_enter _ _ name).trans (by simp [new, BodySpan.macroOf])
      · exact (MacroTable.find?_enter _ _ name).trans (by simp [new', BodySpan.macroOf])
    have like := captured_like renames abreast.expander t t' name spans
    refine ⟨⟨like.symbols, like.macros, like.copies, like.expansions⟩, ?_,
      spans.rest.imp fun _ _ => twin_captured, rfl, sound, sound'⟩
    have written := List.rel_append (abreast.output.imp fun _ _ => twin_captured)
      (List.Forall₂.cons definition (spans.gap.imp fun _ _ => twin_captured))
    simpa [Twins, Pass.replaceBy, unspaced, TokenKind.isSpacing] using written
  · have apart := abreast.sound.holds.unclaimed t (by simp) name kind
    have apart' := abreast.sound'.holds.unclaimed t' (by simp) name kind'
    obtain ⟨after, refused⟩ := capture_refused span apart found
    obtain ⟨after', refused'⟩ := capture_refused span' apart' found'
    rw [refused, refused']
    exact alike_fail rfl

theorem definition_alike (renames : Renaming σ) (abreast : Abreast σ (t :: rest) (t' :: rest') p p')
    (kind : t.kind = .macroDefinition name false) (kind' : t'.kind = .macroDefinition name false) :
    (∃ found found', bodySpan rest = .error (.notBracket found) ∧ bodySpan rest' = .error (.notBracket found')) ∨
      ∃ span span', bodySpan rest = .ok span ∧ bodySpan rest' = .ok span' ∧
        Alike (Abreast σ span.rest span'.rest) (capture p t name span) (capture p' t' name span') := by
  have solid : t.kind.isSpacing = false := by rw [kind]; rfl
  have solid' : t'.kind.isSpacing = false := by rw [kind']; rfl
  obtain ⟨_, agree⟩ := abreast.heads solid solid'
  obtain ⟨stack, nesting, outcome⟩ := definition_cases abreast.sound kind
  obtain ⟨stack', nesting', outcome'⟩ := definition_cases abreast.sound' kind'
  rcases outcome with ⟨found, missing⟩ | ⟨span, found, fits, sound⟩
  · rcases outcome' with ⟨found', missing'⟩ | ⟨span', _, fits', _⟩
    · exact .inl ⟨found, found', missing, missing'⟩
    · -- The shapes agree both ways, so a body on the right would show one on the left.
      obtain ⟨span, there, _⟩ := bodySpan_follows (R := flip (Twin σ p.expander.macros p'.expander.macros))
        (fun _ _ twin => twin.shape.symm) fits' agree.flip nesting abreast.sound.rest_serials
      rw [missing] at there
      cases there
  · obtain ⟨span', found', spans⟩ := bodySpan_follows (fun _ _ twin => twin.shape) fits agree nesting'
      abreast.sound'.rest_serials
    rcases outcome' with ⟨other, missing'⟩ | ⟨other, same, _, sound'⟩
    · rw [missing'] at found'
      cases found'
    · rw [same] at found'
      cases found'
      exact .inr ⟨span, span', found, same, capture_alike renames abreast kind kind' spans sound sound'⟩

theorem confirm_alike (abreast : Abreast σ (t :: rest) (t' :: rest') p p')
    (kind : t.kind = .macroDefinition name true) (solid' : t'.kind.isSpacing = false) :
    Alike (Abreast σ rest rest') (confirm p t name) (confirm p' t' name) := by
  have solid : t.kind.isSpacing = false := by rw [kind]; rfl
  obtain ⟨m, m', found, found', same⟩ := (abreast.heads solid solid').1.captured name kind
  unfold confirm MacroTable.define
  dsimp only
  rw [found, found']
  dsimp only
  by_cases here : m.id = t.id
  · rw [if_pos here, if_pos (same.mp here)]
    exact abreast.keep solid solid'
  · rw [if_neg here, if_neg (fun there => here (same.mpr there))]
    exact alike_fail rfl

theorem rewrite_spacing (spacing : t.kind.isSpacing = true) :
    rewrite ctx down (t :: rest) p = rewrite ctx down rest (p.keep t) := by
  apply rewrite_keep
  · intro name kind
    rw [kind] at spacing
    cases spacing
  · intro name captured kind
    rw [kind] at spacing
    cases spacing

theorem rewrite_alike (ctx : Context) (down : Option (Expander → Run Expander)) (renames : Renaming σ)
    {tokens tokens' : List Token} {p p' : Pass} (abreast : Abreast σ tokens tokens' p p') :
    Alike (Abreast σ [] []) (rewrite ctx down tokens p) (rewrite ctx down tokens' p') := by
  match tokens, tokens' with
  | [], [] =>
    rw [rewrite, rewrite]
    exact abreast
  | [], t' :: rest' =>
    rw [rewrite_spacing abreast.spacing_right]
    exact rewrite_alike ctx down renames (abreast.passRight abreast.spacing_right)
  | t :: rest, [] =>
    rw [rewrite_spacing abreast.spacing_left]
    exact rewrite_alike ctx down renames (abreast.passLeft abreast.spacing_left)
  | t :: rest, t' :: rest' =>
    cases solid : t.kind.isSpacing with
    | true =>
      rw [rewrite_spacing solid]
      exact rewrite_alike ctx down renames (abreast.passLeft solid)
    | false =>
      cases solid' : t'.kind.isSpacing with
      | true =>
        rw [rewrite_spacing solid']
        exact rewrite_alike ctx down renames (abreast.passRight solid')
      | false =>
        have twin := (abreast.heads solid solid').1
        by_cases defines : ∃ name captured, t.kind = .macroDefinition name captured
        · obtain ⟨name, captured, kind⟩ := defines
          have kind' : t'.kind = .macroDefinition name captured := by rw [twin.kind, kind]; rfl
          cases captured with
          | true =>
            rw [rewrite_captured kind, rewrite_captured kind']
            refine (confirm_alike abreast kind solid').andThen ?_
            intro next next' after
            exact rewrite_alike ctx down renames after
          | false =>
            rcases definition_alike renames abreast kind kind' with
              ⟨found, found', missing, missing'⟩ | ⟨span, span', found, found', taken⟩
            · rw [rewrite_bodiless kind missing, rewrite_bodiless kind' missing']
              exact alike_fail rfl
            · rw [rewrite_definition kind found, rewrite_definition kind' found']
              have shorter := bodySpan_rest_lt found
              have shorter' := bodySpan_rest_lt found'
              refine taken.andThen ?_
              intro next next' after
              exact rewrite_alike ctx down renames after
        · have noDefinition : ∀ name captured, t.kind ≠ .macroDefinition name captured :=
            fun name captured kind => defines ⟨name, captured, kind⟩
          rw [rewrite_keep twin.noInclusion noDefinition, rewrite_keep]
          · exact rewrite_alike ctx down renames (abreast.keep solid solid')
          · intro name kind'
            exact twin.noInclusion name (mapLabel_inclusion.mp (twin.kind.symm.trans kind'))
          · intro name captured kind'
            exact noDefinition name captured (mapLabel_macroDefinition.mp (twin.kind.symm.trans kind'))
termination_by tokens.length + tokens'.length
decreasing_by all_goals (simp only [List.length_cons, List.length_nil]; omega)

theorem freeNumber_alike (renames : Renaming σ) {symbols symbols' : SymbolTable}
    (like : SymbolTable.Like σ symbols symbols') (label : String) (tries n : Nat) :
    freeNumber symbols' (σ label) tries n = freeNumber symbols label tries n := by
  induction tries generalizing n with
  | zero => rfl
  | succ tries ih =>
    unfold freeNumber
    rw [← renames.copy, like.contains renames, ih]

structure Copying.Like (σ : String → String) (macros macros' : MacroTable) (c c' : Copying) : Prop where
  expander : Expander.Like σ c.expander c'.expander
  macros : c.expander.macros = macros
  macros' : c'.expander.macros = macros'
  renamed : c'.renamed = c.renamed.map (Prod.map σ σ)

theorem renameCloser_other {c : Copying} (other : t.kind.closerLabel? = none) : renameCloser c t = .ok c := by
  unfold renameCloser
  split
  · rename_i label kind
    rw [kind] at other
    cases other
  · rfl

theorem renameCloser_alike (renames : Renaming σ) {c c' : Copying} (like : Copying.Like σ macros macros' c c')
    (twin : Twin σ macros macros' t t') :
    Alike (Copying.Like σ macros macros') (renameCloser c t) (renameCloser c' t') := by
  have labels : t'.kind.closerLabel? = t.kind.closerLabel?.map σ := by rw [twin.kind, mapLabel_closerLabel?]
  cases closes : t.kind.closerLabel? with
  | none =>
    rw [closes] at labels
    rw [renameCloser_other closes, renameCloser_other labels]
    exact like
  | some label =>
    rw [closes] at labels
    have kind := TokenKind.closerLabel?_eq_some.mp closes
    have kind' := TokenKind.closerLabel?_eq_some.mp labels
    unfold renameCloser
    simp only [kind, kind']
    rw [like.expander.symbols.size, like.expander.copies, freeNumber_alike renames like.expander.symbols, ← renames.copy]
    generalize freeNumber c.expander.symbols label c.expander.symbols.size (c.expander.copies + 1) = n
    have anonymous : true = false → Plain s!"{label}#{n}" := by simp
    rcases like.expander.symbols.define renames s!"{label}#{n}" anonymous t.location t'.location with
      ⟨s, s', failed, failed'⟩ | ⟨symbols, symbols', defined, defined', next⟩
    · rw [failed, failed']
      exact alike_fail rfl
    · rw [defined, defined']
      exact ⟨⟨next, like.expander.macros, rfl, like.expander.expansions⟩, like.macros, like.macros', by simp [like.renamed]⟩

theorem Copying.Like.label (renames : Renaming σ) {c c' : Copying} (like : Copying.Like σ macros macros' c c')
    (x : String) : c'.label (σ x) = σ (c.label x) := by
  have lookup (entries : List (String × String)) :
      (entries.map (Prod.map σ σ)).lookup (σ x) = (entries.lookup x).map σ := by
    induction entries with
    | nil => rfl
    | cons entry rest ih =>
      obtain ⟨key, value⟩ := entry
      by_cases here : x = key
      · simp [here]
      · have there : σ x ≠ σ key := fun same => here (renames.injective same)
        simp [List.lookup_cons, beq_false_of_ne here, beq_false_of_ne there, ih]
  unfold Copying.label
  rw [like.renamed, lookup]
  cases c.renamed.lookup x <;> rfl

theorem mapLabel_mapLabel {f g : String → String} {kind : TokenKind} :
    (kind.mapLabel f).mapLabel g = kind.mapLabel (g ∘ f) := by
  cases kind with
  | reference r => cases target : r.target <;> simp [TokenKind.mapLabel, target]
  | _ => rfl

-- The serial numbers of copies are new, so no copy of a definition is the one in a table.
theorem copyToken_twin {f f' : String → String} {base base' : Nat} {body body' : List Token}
    (commutes : ∀ x, f' (σ x) = σ (f x)) (below : ∀ m ∈ macros.entries, m.id < base)
    (below' : ∀ m ∈ macros'.entries, m.id < base') (twin : Twin σ macros macros' t t') :
    Twin σ macros macros' (copyToken base body f t) (copyToken base' body' f' t') := by
  refine ⟨?_, ?_, ?_⟩
  · have same : f' ∘ σ = σ ∘ f := funext commutes
    simp only [copyToken]
    rw [twin.kind, mapLabel_mapLabel, mapLabel_mapLabel, same]
  · intro name kind
    exact twin.noInclusion name (mapLabel_inclusion.mp kind)
  · intro name kind
    obtain ⟨m, m', found, found', _⟩ := twin.captured name (mapLabel_macroDefinition.mp kind)
    have low := below m (List.mem_of_find?_eq_some found)
    have low' := below' m' (List.mem_of_find?_eq_some found')
    refine ⟨m, m', found, found', iff_of_false ?_ ?_⟩
    · simp only [copyToken]
      omega
    · simp only [copyToken]
      omega

theorem invoked?_alike (renames : Renaming σ) (like : Like σ e e') (twin : Twin σ e.macros e'.macros t t')
    (regular : t.kind.Regular) : invoked? e.macros t = none ∧ invoked? e'.macros t' = none ∨
      ∃ m m', invoked? e.macros t = some m ∧ invoked? e'.macros t' = some m' ∧
        MacroLike (Twin σ e.macros e'.macros) m m' := by
  have kind' := twin.kind
  unfold invoked?
  cases kind : t.kind with
  | reference r =>
    rw [kind] at regular kind'
    have suits := regular.2
    cases target : r.target with
    | named label =>
      rw [target] at suits
      simp only [TokenKind.mapLabel, target, renames.plain label suits.1] at kind'
      simp only [kind', target, Target.label?, Option.bind_some]
      by_cases call : r.form = .call
      · rw [if_pos call, if_pos call]
        exact find?_like like.macros label
      · rw [if_neg call, if_neg call]
        exact .inl ⟨rfl, rfl⟩
    | «inline» label =>
      rw [target] at suits
      simp only [TokenKind.mapLabel, target] at kind'
      simp only [kind']
      rw [if_neg suits.2, if_neg suits.2]
      exact .inl ⟨rfl, rfl⟩
  | _ =>
    rw [kind] at kind'
    simp [kind', TokenKind.mapLabel]

theorem renameClosers_alike (renames : Renaming σ) (like : Like σ e e') {body body' : List Token}
    (bodies : List.Forall₂ (Twin σ e.macros e'.macros) body body') :
    Alike (Copying.Like σ e.macros e'.macros) (Run.each renameCloser ⟨e, []⟩ body)
      (Run.each renameCloser ⟨e', []⟩ body') := by
  have agree : List.Forall₂ (Twin σ e.macros e'.macros) (body.filter fun _ => true) (body'.filter fun _ => true) := by
    simpa using bodies
  refine alike_each (fun _ _ => Copying.Like σ e.macros e'.macros) ?_ ?_ ?_ agree ⟨like, rfl, rfl, rfl⟩
  · intro x xs ys c c' impossible
    cases impossible
  · intro y xs ys c c' impossible
    cases impossible
  · intro x y xs ys c c' twin copies
    exact renameCloser_alike renames copies twin

theorem twins_of_all (all : List.Forall₂ (Twin σ macros macros') tokens tokens') :
    Twins σ macros macros' tokens tokens' := by
  refine List.rel_filter ?_ all
  intro t t' twin
  simp [twin.isSpacing]

theorem expandMacro_alike (renames : Renaming σ) (abreast : Abreast σ (t :: rest) (t' :: rest') p p')
    (agree : Twins σ p.expander.macros p'.expander.macros rest rest') {m m' : Macro}
    (known : m ∈ p.expander.macros.entries) (known' : m' ∈ p'.expander.macros.entries)
    (macros : MacroLike (Twin σ p.expander.macros p'.expander.macros) m m')
    (sound : Ends (Sound [] rest) (Failure.Within faults) (expandMacro m t p))
    (sound' : Ends (Sound [] rest') (Failure.Within faults) (expandMacro m' t' p')) :
    Alike (Abreast σ rest rest') (expandMacro m t p) (expandMacro m' t' p') := by
  have holds := abreast.sound.holds
  have holds' := abreast.sound'.holds
  obtain ⟨c, ran, renamed, expanded⟩ := expandMacro_eq holds.custody.distinct m t
  obtain ⟨c', ran', renamed', expanded'⟩ := expandMacro_eq holds'.custody.distinct m' t'
  have copies : Copying.Like σ p.expander.macros p'.expander.macros c c' := by
    have alike := renameClosers_alike renames abreast.expander macros.body
    rwa [ran, ran'] at alike
  have below : ∀ other ∈ p.expander.macros.entries, other.id < c.expander.nextId := by
    intro other member
    rw [renamed.nextId_eq]
    exact (holds.stored other member).2
  have below' : ∀ other ∈ p'.expander.macros.entries, other.id < c'.expander.nextId := by
    intro other member
    rw [renamed'.nextId_eq]
    exact (holds'.stored other member).2
  have bodies : List.Forall₂ (Twin σ p.expander.macros p'.expander.macros)
      (copyBody c.expander.nextId m.body c.label) (copyBody c'.expander.nextId m'.body c'.label) := by
    rw [copyBody_eq_map (holds.body_custody known).serials, copyBody_eq_map (holds'.body_custody known').serials,
      List.forall₂_map_left_iff, List.forall₂_map_right_iff]
    exact macros.body.imp fun u u' twin => copyToken_twin (copies.label renames) below below' twin
  rw [expanded] at sound ⊢
  rw [expanded'] at sound' ⊢
  refine ⟨?_, ?_, ?_, rfl, sound, sound'⟩
  · exact ⟨copies.expander.symbols, copies.expander.macros, copies.expander.copies,
      congrArg (· + 1) copies.expander.expansions⟩
  · change List.Forall₂ (Twin σ c.expander.macros c'.expander.macros) _ _
    rw [copies.macros, copies.macros']
    simpa [Pass.replaceBy] using List.rel_append abreast.output (twins_of_all bodies)
  · change List.Forall₂ (Twin σ c.expander.macros c'.expander.macros) _ _
    rw [copies.macros, copies.macros']
    exact agree

theorem unwrapToken_alike (renames : Renaming σ) (limit : Int) (abreast : Abreast σ (t :: rest) (t' :: rest') p p')
    (solid : t.kind.isSpacing = false) (solid' : t'.kind.isSpacing = false) :
    Alike (Abreast σ rest rest') (unwrapToken limit p t) (unwrapToken limit p' t') := by
  obtain ⟨twin, later⟩ := abreast.heads solid solid'
  have regular := abreast.sound.orderly.regular t (by simp)
  have regular' := abreast.sound'.orderly.regular t' (by simp)
  have sound : Ends _ _ (unwrapToken limit p t) := unwrapToken_sound abreast.sound
  have sound' : Ends _ _ (unwrapToken limit p' t') := unwrapToken_sound abreast.sound'
  unfold unwrapToken at sound sound' ⊢
  rcases invoked?_alike renames abreast.expander twin regular with
    ⟨none, none'⟩ | ⟨m, m', found, found', macros⟩
  · rw [none, none']
    exact abreast.keep solid solid'
  · rw [found] at sound ⊢
    rw [found'] at sound' ⊢
    dsimp only at sound sound' ⊢
    rw [abreast.expander.expansions] at sound' ⊢
    by_cases full : limit ≤ p.expander.stats.expansions
    · rw [if_pos full, if_pos full]
      exact alike_fail rfl
    · rw [if_neg full] at sound sound' ⊢
      rw [if_neg full]
      exact expandMacro_alike renames abreast later (invoked?_call regular found).1 (invoked?_call regular' found').1
        macros sound sound'

theorem unwrapToken_spacing (limit : Int) (p : Pass) (spacing : t.kind.isSpacing = true) :
    unwrapToken limit p t = .ok (p.keep t) := by
  have none : invoked? p.expander.macros t = none := by
    unfold invoked?
    split
    · rename_i r kind
      rw [kind] at spacing
      cases spacing
    · rfl
  unfold unwrapToken
  rw [none]

structure Matching (σ : String → String) (e e' : Expander) : Prop where
  like : Like σ e e'
  program : Twins σ e.macros e'.macros e.program e'.program
  holds : e.Holds e.program
  holds' : e'.Holds e'.program
  orderly : Orderly e.program
  orderly' : Orderly e'.program

theorem Matching.start (matching : Matching σ e e') :
    Abreast σ e.program e'.program { expander := e } { expander := e' } :=
  ⟨matching.like, .nil, matching.program, rfl, ⟨matching.holds, matching.orderly⟩,
    ⟨matching.holds', matching.orderly'⟩⟩

theorem Abreast.result (abreast : Abreast σ [] [] p p') : Matching σ p.result p'.result := by
  obtain ⟨holds, orderly⟩ := abreast.sound.result
  obtain ⟨holds', orderly'⟩ := abreast.sound'.result
  exact ⟨⟨abreast.expander.symbols, abreast.expander.macros, abreast.expander.copies, abreast.expander.expansions⟩,
    abreast.output, holds, holds', orderly, orderly'⟩

theorem Matching.counted (matching : Matching σ e e') : Matching σ e.countPass e'.countPass where
  like := ⟨matching.like.symbols, matching.like.macros, matching.like.copies, matching.like.expansions⟩
  program := matching.program
  holds := matching.holds.aside rfl rfl rfl
  holds' := matching.holds'.aside rfl rfl rfl
  orderly := matching.orderly
  orderly' := matching.orderly'

theorem Matching.noted (matching : Matching σ e e') (event event' : Event) :
    Matching σ (e.note event) (e'.note event') where
  like := ⟨matching.like.symbols, matching.like.macros, matching.like.copies, matching.like.expansions⟩
  program := matching.program
  holds := matching.holds.aside rfl rfl rfl
  holds' := matching.holds'.aside rfl rfl rfl
  orderly := matching.orderly
  orderly' := matching.orderly'

theorem unwrap_alike (renames : Renaming σ) (limit : Int) (matching : Matching σ e e') :
    Alike (Abreast σ [] []) (unwrap limit e) (unwrap limit e') := by
  rw [unwrap_eq, unwrap_eq]
  have agree : List.Forall₂ (fun t t' : Token => t.kind.isSpacing = false ∧ t'.kind.isSpacing = false)
      (unspaced e.program) (unspaced e'.program) := by
    refine List.forall₂_iff_zip.mpr ⟨matching.program.length_eq, ?_⟩
    intro t t' pair
    have left := (List.mem_filter.mp (List.of_mem_zip pair).1).2
    have right := (List.mem_filter.mp (List.of_mem_zip pair).2).2
    exact ⟨by simpa using left, by simpa using right⟩
  refine alike_each (Abreast σ) ?_ ?_ ?_ agree matching.start
  · intro t rest rest' p p' passed abreast
    have spacing : t.kind.isSpacing = true := by simpa using passed
    exact ⟨_, unwrapToken_spacing limit p spacing, abreast.passLeft spacing⟩
  · intro t' rest rest' p p' passed abreast
    have spacing : t'.kind.isSpacing = true := by simpa using passed
    exact ⟨_, unwrapToken_spacing limit p' spacing, abreast.passRight spacing⟩
  · intro t t' rest rest' p p' solids abreast
    exact unwrapToken_alike renames limit abreast solids.1 solids.2

theorem settle_alike (ctx : Context) (down : Option (Expander → Run Expander)) (renames : Renaming σ) (passes : Nat)
    (matching : Matching σ e e') :
    Alike (Matching σ) (settle ctx down passes e) (settle ctx down passes e') := by
  induction passes generalizing e e' with
  | zero => exact alike_fail rfl
  | succ passes ih =>
    unfold settle
    rcases (rewrite_alike ctx down renames matching.counted.start).cases with
      ⟨p, p', ran, ran', halfway⟩ | ⟨stop, stop', ran, ran', same⟩
    · rw [show rewrite ctx down e.program _ = _ from ran, show rewrite ctx down e'.program _ = _ from ran']
      dsimp only
      rcases (unwrap_alike renames ctx.settings.maxExpansions halfway.result).cases with
        ⟨q, q', unran, unran', whole⟩ | ⟨stop, stop', unran, unran', same⟩
      · rw [unran, unran']
        dsimp only
        rw [halfway.changed, whole.changed]
        split
        · exact ih whole.result
        · exact whole.result.noted _ _
      · rw [unran, unran']
        exact same
    · rw [show rewrite ctx down e.program _ = _ from ran, show rewrite ctx down e'.program _ = _ from ran']
      exact same

theorem expand_alike (ctx : Context) (renames : Renaming σ) (room : Nat) (matching : Matching σ e e') :
    Alike (Matching σ) (expand ctx room e) (expand ctx room e') := by
  cases room with
  | zero => exact settle_alike ctx none renames _ matching
  | succ room => exact settle_alike ctx (some (expand ctx room)) renames _ matching

end Expander

end RuneAsm
