import Mathlib
import RuneAsm.Proofs.Splicing.Texts
import RuneAsm.Proofs.Substitution

namespace RuneAsm

-- What an expansion makes of a text, apart from the passes in which it does so. What the text says falls into the words
-- that stay and the bodies that are taken out under their names, with those of the files it includes in their places;
-- then each word that names a body gives way to it. Both steps are determined, and both go piece by piece.

-- The layout passes over it.
def TokenKind.isIdle : TokenKind → Bool
  | .blank | .comment | .groupOpen | .groupClose | .macroDefinition _ _ => true
  | _ => false

-- How many brackets are open after a token inside a pair of brackets, if it does not close the pair.
def depthAfter (depth : Nat) (kind : TokenKind) : Option Nat :=
  match kind.closes? with
  | some _ => if depth = 0 then none else some (depth - 1)
  | none => if kind.closer?.isSome then some (depth + 1) else some depth

-- What comes before the bracket that closes the pair in which the list begins, and what comes after it.
def enclosed : Nat → List TokenKind → Option (List TokenKind × List TokenKind)
  | _, [] => none
  | depth, kind :: rest =>
    match depthAfter depth kind with
    | none => some ([], rest)
    | some next => (enclosed next rest).map fun found => (kind :: found.1, found.2)

-- Between a definition and its body only brackets that close may stand.
def body? (kinds : List TokenKind) : Option (List TokenKind × List TokenKind) :=
  match kinds.dropWhile (· = .groupClose) with
  | [] => none
  | opener :: after => if Expander.opensBody opener then enclosed 0 after else none

variable {kinds rest inside after early late inner xs ys : List TokenKind} {kind : TokenKind} {depth : Nat}
variable {name : String}

theorem enclosed_cons : enclosed depth (kind :: xs) = some (inside, after) ↔
    depthAfter depth kind = none ∧ inside = [] ∧ after = xs ∨
      ∃ next inner, depthAfter depth kind = some next ∧ inside = kind :: inner ∧
        enclosed next xs = some (inner, after) := by
  rw [enclosed]
  cases moved : depthAfter depth kind with
  | none => simp [eq_comm]
  | some next =>
    constructor
    · intro found
      obtain ⟨⟨inner, later⟩, deeper, same⟩ := Option.map_eq_some_iff.mp found
      cases same
      exact .inr ⟨next, inner, rfl, rfl, deeper⟩
    · rintro (⟨stop, _⟩ | ⟨next, inner, ⟨⟩, rfl, deeper⟩)
      · cases stop
      · simp [deeper]

theorem enclosed_append (found : enclosed depth xs = some (inside, after)) (ys : List TokenKind) :
    enclosed depth (xs ++ ys) = some (inside, after ++ ys) := by
  induction xs generalizing depth inside with
  | nil => simp [enclosed] at found
  | cons kind xs ih =>
    rw [List.cons_append, enclosed_cons]
    rcases enclosed_cons.mp found with ⟨stop, rfl, rfl⟩ | ⟨next, inner, moved, rfl, deeper⟩
    · exact .inl ⟨stop, rfl, rfl⟩
    · exact .inr ⟨next, inner, moved, rfl, ih deeper⟩

-- A body that does not reach beyond a token ends before it.
theorem enclosed_split (found : enclosed depth (xs ++ kind :: ys) = some (inside, after)) (outside : kind ∉ inside)
    (closesNone : kind.closes? = none) :
    ∃ before, after = before ++ kind :: ys ∧ enclosed depth xs = some (inside, before) := by
  induction xs generalizing depth inside with
  | nil =>
    rcases enclosed_cons.mp found with ⟨stop, _⟩ | ⟨next, inner, _, rfl, _⟩
    · simp only [depthAfter, closesNone] at stop
      split at stop <;> cases stop
    · simp at outside
  | cons first xs ih =>
    rcases enclosed_cons.mp found with ⟨stop, rfl, rfl⟩ | ⟨next, inner, moved, rfl, deeper⟩
    · exact ⟨xs, rfl, enclosed_cons.mpr (.inl ⟨stop, rfl, rfl⟩)⟩
    · obtain ⟨before, rfl, shorter⟩ := ih deeper fun member => outside (List.mem_cons_of_mem _ member)
      exact ⟨before, rfl, enclosed_cons.mpr (.inr ⟨next, inner, moved, rfl, shorter⟩)⟩

theorem enclosed_suffix (found : enclosed depth xs = some (inside, after)) : after <:+ xs := by
  induction xs generalizing depth inside with
  | nil => simp [enclosed] at found
  | cons kind xs ih =>
    rcases enclosed_cons.mp found with ⟨_, _, rfl⟩ | ⟨_, _, _, _, deeper⟩
    · exact List.suffix_cons _ _
    · exact (ih deeper).trans (List.suffix_cons _ _)

theorem body?_eq_some : body? xs = some (inside, after) ↔ ∃ opener rest,
    xs.dropWhile (· = .groupClose) = opener :: rest ∧ Expander.opensBody opener = true ∧
      enclosed 0 rest = some (inside, after) := by
  unfold body?
  cases xs.dropWhile (· = .groupClose) with
  | nil => simp
  | cons opener rest => cases opens : Expander.opensBody opener <;> simp [opens]

theorem body?_append (found : body? xs = some (inside, after)) (ys : List TokenKind) :
    body? (xs ++ ys) = some (inside, after ++ ys) := by
  obtain ⟨opener, rest, dropped, opens, within⟩ := body?_eq_some.mp found
  apply body?_eq_some.mpr
  refine ⟨opener, rest ++ ys, ?_, opens, enclosed_append within ys⟩
  rw [List.dropWhile_append, dropped]
  rfl

theorem body?_split (found : body? (xs ++ kind :: ys) = some (inside, after)) (outside : kind ∉ inside)
    (closesNone : kind.closes? = none) (opensNone : Expander.opensBody kind = false) :
    ∃ before, after = before ++ kind :: ys ∧ body? xs = some (inside, before) := by
  have other : kind ≠ .groupClose := by
    rintro rfl
    cases closesNone
  obtain ⟨opener, rest, dropped, opens, within⟩ := body?_eq_some.mp found
  rw [(Lexeme.while_append _ (by simpa using other) xs ys).2] at dropped
  cases gap : xs.dropWhile (· = .groupClose) with
  | nil =>
    rw [gap] at dropped
    cases dropped
    rw [opensNone] at opens
    cases opens
  | cons first more =>
    rw [gap] at dropped
    obtain ⟨rfl, rfl⟩ := List.cons.inj dropped
    obtain ⟨before, same, shorter⟩ := enclosed_split within outside closesNone
    exact ⟨before, same, body?_eq_some.mpr ⟨first, more, gap, opens, shorter⟩⟩

theorem body?_suffix (found : body? xs = some (inside, after)) : after <:+ xs := by
  obtain ⟨opener, rest, dropped, _, within⟩ := body?_eq_some.mp found
  have inner : opener :: rest <:+ xs := dropped ▸ List.dropWhile_suffix _
  exact (enclosed_suffix within).trans ((List.suffix_cons _ _).trans inner)

-- The bodies in the order of their definitions.
abbrev Definitions : Type := List (String × List TokenKind)

-- What is said in a file falls into the words that stay and the bodies. A body includes no file.
inductive Gathers (ctx : Context) : String → List TokenKind → List TokenKind → Definitions → Prop where
  | done (file : String) : Gathers ctx file [] [] []
  | passed {file : String} {kind : TokenKind} {rest words : List TokenKind} {bodies : Definitions}
      (idle : kind.isIdle = true) (noDefinition : ∀ name, kind ≠ .macroDefinition name false)
      (later : Gathers ctx file rest words bodies) : Gathers ctx file (kind :: rest) words bodies
  | kept {file : String} {kind : TokenKind} {rest words : List TokenKind} {bodies : Definitions}
      (counts : kind.isIdle = false) (noInclusion : ∀ name, kind ≠ .inclusion name)
      (later : Gathers ctx file rest words bodies) : Gathers ctx file (kind :: rest) (kind :: words) bodies
  | defined {file name : String} {rest inside after words : List TokenKind} {bodies : Definitions}
      (found : body? rest = some (inside, after)) (noInclusion : ∀ kind ∈ inside, ∀ name, kind ≠ .inclusion name)
      (later : Gathers ctx file after words bodies) :
      Gathers ctx file (.macroDefinition name false :: rest) words ((name, inside.filter (!·.isIdle)) :: bodies)
  | included {file name : String} {path : Path} {source : List Char} {said rest innerWords words : List TokenKind}
      {innerBodies bodies : Definitions} (found : Expander.findFile ctx name file = some path)
      (stored : ctx.disk.readText path = .ok source)
      (meaning : said.map some = Lexeme.sayings none (Lexeme.solids source))
      (inner : Gathers ctx path.text said innerWords innerBodies) (later : Gathers ctx file rest words bodies) :
      Gathers ctx file (.inclusion name :: rest) (innerWords ++ words) (innerBodies ++ bodies)

namespace Gathers

variable {ctx : Context} {file : String} {words words' : List TokenKind} {bodies bodies' : Definitions}

-- The disk and the words of the file determine what an inclusion brings.
theorem of_inclusion {path : Path} {source : List Char} (gathers : Gathers ctx file (.inclusion name :: late) words bodies)
    (found : Expander.findFile ctx name file = some path) (stored : ctx.disk.readText path = .ok source)
    (meaning : inner.map some = Lexeme.sayings none (Lexeme.solids source)) :
    ∃ front back before behind, words = front ++ back ∧ bodies = before ++ behind ∧
      Gathers ctx path.text inner front before ∧ Gathers ctx file late back behind := by
  cases gathers with
  | passed idle _ _ => cases idle
  | kept _ noInclusion _ => exact absurd rfl (noInclusion _)
  | included found' stored' meaning' opened later =>
    rw [found] at found'
    cases found'
    rw [stored] at stored'
    cases stored'
    have same := List.map_injective_iff.mpr (Option.some_injective _) (meaning.trans meaning'.symm)
    subst same
    exact ⟨_, _, _, _, rfl, rfl, opened, later⟩

theorem deterministic (first : Gathers ctx file kinds words bodies) (second : Gathers ctx file kinds words' bodies') :
    words' = words ∧ bodies' = bodies := by
  induction first generalizing words' bodies' with
  | done file =>
    cases second
    exact ⟨rfl, rfl⟩
  | passed idle noDefinition later ih =>
    cases second with
    | passed _ _ later' => exact ih later'
    | kept counts _ _ =>
      rw [idle] at counts
      cases counts
    | defined => exact absurd rfl (noDefinition _)
    | included => cases idle
  | kept counts noInclusion later ih =>
    cases second with
    | passed idle _ _ =>
      rw [idle] at counts
      cases counts
    | kept _ _ later' =>
      obtain ⟨rfl, rfl⟩ := ih later'
      exact ⟨rfl, rfl⟩
    | defined => cases counts
    | included => exact absurd rfl (noInclusion _)
  | defined found _ later ih =>
    cases second with
    | passed _ noDefinition _ => exact absurd rfl (noDefinition _)
    | kept counts _ _ => cases counts
    | defined found' _ later' =>
      rw [found] at found'
      cases found'
      obtain ⟨rfl, rfl⟩ := ih later'
      exact ⟨rfl, rfl⟩
  | included found stored meaning _ _ innerIh laterIh =>
    obtain ⟨front, back, before, behind, rfl, rfl, inner, later⟩ := second.of_inclusion found stored meaning
    obtain ⟨rfl, rfl⟩ := innerIh inner
    obtain ⟨rfl, rfl⟩ := laterIh later
    exact ⟨rfl, rfl⟩

theorem append (first : Gathers ctx file early words bodies) (second : Gathers ctx file late words' bodies') :
    Gathers ctx file (early ++ late) (words ++ words') (bodies ++ bodies') := by
  induction first with
  | done file => exact second
  | passed idle noDefinition _ ih => exact .passed idle noDefinition (ih second)
  | kept counts noInclusion _ ih => exact .kept counts noInclusion (ih second)
  | defined found noInclusion _ ih => exact .defined (body?_append found late) noInclusion (ih second)
  | included found stored meaning inner _ _ ih =>
    rw [List.append_assoc, List.append_assoc]
    exact .included found stored meaning inner (ih second)

-- An inclusion parts a text, because no body reaches over it.
theorem split (whole : Gathers ctx file (early ++ .inclusion name :: late) words bodies) :
    ∃ front back before behind, words = front ++ back ∧ bodies = before ++ behind ∧
      Gathers ctx file early front before ∧ Gathers ctx file (.inclusion name :: late) back behind := by
  generalize text : early ++ .inclusion name :: late = full at whole
  induction whole generalizing early with
  | done file => simp at text
  | @passed file kind rest words bodies idle noDefinition later ih =>
    cases early with
    | nil =>
      cases text
      cases idle
    | cons first early =>
      cases text
      obtain ⟨front, back, before, behind, rfl, rfl, parted, remaining⟩ := ih rfl
      exact ⟨front, back, before, behind, rfl, rfl, .passed idle noDefinition parted, remaining⟩
  | @kept file kind rest words bodies counts noInclusion later ih =>
    cases early with
    | nil =>
      cases text
      exact absurd rfl (noInclusion _)
    | cons first early =>
      cases text
      obtain ⟨front, back, before, behind, rfl, rfl, parted, remaining⟩ := ih rfl
      exact ⟨kind :: front, back, before, behind, rfl, rfl, .kept counts noInclusion parted, remaining⟩
  | @defined file other rest inside after words bodies found noInclusion later ih =>
    cases early with
    | nil => cases text
    | cons first early =>
      cases text
      obtain ⟨shorter, rfl, same⟩ := body?_split found (fun member => noInclusion _ member name rfl) rfl rfl
      obtain ⟨front, back, before, behind, rfl, rfl, parted, remaining⟩ := ih rfl
      exact ⟨front, back, _ :: before, behind, rfl, rfl, .defined same noInclusion parted, remaining⟩
  | @included file other path source said rest innerWords words innerBodies bodies found stored meaning inner later _ ih =>
    cases early with
    | nil =>
      cases text
      exact ⟨[], _, [], _, rfl, rfl, .done _, .included found stored meaning inner later⟩
    | cons first early =>
      cases text
      obtain ⟨front, back, before, behind, rfl, rfl, parted, remaining⟩ := ih rfl
      exact ⟨innerWords ++ front, back, innerBodies ++ before, behind, by simp, by simp,
        .included found stored meaning inner parted, remaining⟩

-- The file in which something is said counts only for what it includes.
theorem elsewhere (gathers : Gathers ctx file kinds words bodies) (noInclusion : ∀ kind ∈ kinds, ∀ name, kind ≠ .inclusion name)
    (other : String) : Gathers ctx other kinds words bodies := by
  induction gathers with
  | done file => exact .done other
  | passed idle noDefinition _ ih =>
    exact .passed idle noDefinition (ih fun kind member => noInclusion kind (List.mem_cons_of_mem _ member))
  | kept counts free _ ih =>
    exact .kept counts free (ih fun kind member => noInclusion kind (List.mem_cons_of_mem _ member))
  | defined found free _ ih =>
    refine .defined found free (ih fun kind member => noInclusion kind (List.mem_cons_of_mem _ ?_))
    exact (body?_suffix found).subset member
  | included => exact absurd rfl (noInclusion _ List.mem_cons_self _)

-- What a file says can stand in the place of its inclusion.
theorem spliced {path : Path} {source : List Char} (whole : Gathers ctx file (early ++ .inclusion name :: late) words bodies)
    (found : Expander.findFile ctx name file = some path) (stored : ctx.disk.readText path = .ok source)
    (meaning : inner.map some = Lexeme.sayings none (Lexeme.solids source))
    (noInclusion : ∀ kind ∈ inner, ∀ name, kind ≠ .inclusion name) :
    Gathers ctx file (early ++ (inner ++ late)) words bodies := by
  obtain ⟨front, back, before, behind, rfl, rfl, first, rest⟩ := whole.split
  obtain ⟨_, _, _, _, rfl, rfl, opened, later⟩ := rest.of_inclusion found stored meaning
  exact first.append ((opened.elsewhere noInclusion file).append later)

end Gathers

-- A word that names a body gives way to it, and so do the words of the body.
inductive Unfolds (named : String → Option (List TokenKind)) : List TokenKind → List TokenKind → Prop where
  | done : Unfolds named [] []
  | kept {kind : TokenKind} {rest out : List TokenKind} (noMacro : kind.called?.bind named = none)
      (later : Unfolds named rest out) : Unfolds named (kind :: rest) (kind :: out)
  | replaced {kind : TokenKind} {body copy rest out : List TokenKind} (stands : kind.called?.bind named = some body)
      (inner : Unfolds named body copy) (later : Unfolds named rest out) : Unfolds named (kind :: rest) (copy ++ out)

namespace Unfolds

variable {named : String → Option (List TokenKind)} {out out' : List TokenKind}

theorem deterministic (first : Unfolds named xs out) (second : Unfolds named xs out') : out' = out := by
  induction first generalizing out' with
  | done =>
    cases second
    rfl
  | kept noMacro _ ih =>
    cases second with
    | kept _ later => rw [ih later]
    | replaced stands _ _ =>
      rw [noMacro] at stands
      cases stands
  | replaced stands _ _ innerIh laterIh =>
    cases second with
    | kept noMacro _ =>
      rw [noMacro] at stands
      cases stands
    | replaced stands' inner later =>
      rw [stands] at stands'
      cases stands'
      rw [innerIh inner, laterIh later]

theorem append (first : Unfolds named early xs) (second : Unfolds named late ys) :
    Unfolds named (early ++ late) (xs ++ ys) := by
  induction first with
  | done => exact second
  | kept noMacro _ ih => exact .kept noMacro ih
  | replaced stands inner _ _ ih =>
    rw [List.append_assoc]
    exact .replaced stands inner ih

theorem split (whole : Unfolds named (early ++ late) out) :
    ∃ front back, out = front ++ back ∧ Unfolds named early front ∧ Unfolds named late back := by
  induction early generalizing out with
  | nil => exact ⟨[], out, rfl, .done, whole⟩
  | cons kind early ih =>
    cases whole with
    | kept noMacro later =>
      obtain ⟨front, back, rfl, first, second⟩ := ih later
      exact ⟨kind :: front, back, rfl, .kept noMacro first, second⟩
    | @replaced _ body copy _ out stands inner later =>
      obtain ⟨front, back, rfl, first, second⟩ := ih later
      exact ⟨copy ++ front, back, by simp, .replaced stands inner first, second⟩

theorem unchanged (noMacros : ∀ kind ∈ xs, kind.called?.bind named = none) : Unfolds named xs xs := by
  induction xs with
  | nil => exact .done
  | cons kind rest ih =>
    exact .kept (noMacros kind List.mem_cons_self) (ih fun other member => noMacros other (List.mem_cons_of_mem _ member))

end Unfolds

end RuneAsm
