import Mathlib
import RuneAsm.Proofs.Brackets
import RuneAsm.Proofs.Names
import RuneAsm.Record

namespace RuneAsm

-- Tokens as texts produce them: numbers fit their width, references say what their form says and know their label, and
-- the labels of a program are told apart from those of inline subroutines by having no blank.

def Width.Fits : Width → Int → Prop
  | .byte, value => 0 ≤ value ∧ value < 0x100
  | .short, value => 0 ≤ value ∧ value < 0x10000

-- A lone brace never names a label, and a word without a rune never opens a subroutine.
def Target.Suits (form : ReferenceForm) : Target → Prop
  | .named label => Plain label ∧ form ≠ .subroutine
  | .inline label => (∃ l, label = some l ∧ ¬ Plain l) ∧ form ≠ .call

def Reference.Regular (r : Reference) : Prop := r = r.form.to r.target ∧ r.target.Suits r.form

def TokenKind.Regular : TokenKind → Prop
  | .opcode value => Width.Fits .byte value
  | .rawHex value width => width.Fits value
  | .literalHex value width => width.Fits value
  | .parentLabel label implied => Plain label ∧ ∀ parent, implied = some parent → Plain parent
  | .childLabel label => Plain label
  | .subroutineClose label => ¬ Plain label
  | .reference r => r.Regular
  | _ => True

theorem regular_to {form : ReferenceForm} {target : Target} (suits : target.Suits form) :
    (form.to target).Regular := ⟨rfl, suits⟩

theorem Reference.Regular.instruction_eq {r : Reference} (regular : r.Regular) :
    r.instruction = r.form.instruction := by
  rw [regular.1]
  rfl

theorem Reference.Regular.label?_eq {r : Reference} (regular : r.Regular) :
    ∃ label, r.target.label? = some label := by
  have suits := regular.2
  cases target : r.target with
  | named label => exact ⟨label, rfl⟩
  | «inline» label =>
    rw [target] at suits
    obtain ⟨l, rfl, _⟩ := suits.1
    exact ⟨l, rfl⟩

-- Only a lone opening brace or a group can open a body, and both are brackets.
theorem closer?_of_opensBody {kind : TokenKind} (regular : kind.Regular)
    (opens : Expander.opensBody kind = true) : ∃ c, kind.closer? = some c := by
  cases kind with
  | groupOpen => exact ⟨']', rfl⟩
  | reference r =>
    have form : r.form = .subroutine := by simpa [Expander.opensBody] using opens
    have suits := regular.2
    cases target : r.target with
    | named label =>
      rw [target] at suits
      exact absurd form suits.2
    | «inline» label => exact ⟨'\x7d', TokenKind.closer?_eq_curly.mpr ⟨r, label, rfl, target⟩⟩
  | _ => cases opens

-- Blanks and comments; the other transparent tokens are brackets.
def TokenKind.isSpacing : TokenKind → Bool
  | .blank | .comment => true
  | _ => false

-- The labels to which a token gives addresses, in the order in which it does.
def TokenKind.places : TokenKind → List String
  | .parentLabel label implied => implied.toList ++ [label]
  | .childLabel label => [label]
  | .subroutineClose label => [label]
  | _ => []

-- Labels with a name of their own.
def TokenKind.isNamed : TokenKind → Bool
  | .parentLabel _ _ | .childLabel _ => true
  | _ => false

theorem TokenKind.places_eq_nil {kind : TokenKind} (unnamed : kind.isNamed = false) (closesNone : kind.closes? = none) :
    kind.places = [] := by
  cases kind <;> simp_all [places, isNamed, closes?]

structure Orderly (tokens : List Token) : Prop where
  balanced : Balanced tokens
  regular : ∀ t ∈ tokens, t.kind.Regular

theorem Orderly.nil : Orderly [] := ⟨.nil, by simp⟩

theorem Orderly.append {front back : List Token} (first : Orderly front) (second : Orderly back) :
    Orderly (front ++ back) := by
  refine ⟨first.balanced.append second.balanced, ?_⟩
  intro t member
  rcases List.mem_append.mp member with left | right
  · exact first.regular t left
  · exact second.regular t right

def TokenKind.closerLabel? : TokenKind → Option String
  | .subroutineClose label => some label
  | _ => none

theorem TokenKind.closerLabel?_eq_some {kind : TokenKind} {label : String} :
    kind.closerLabel? = some label ↔ kind = .subroutineClose label := by
  cases kind <;> simp [closerLabel?]

def closerLabels (tokens : List Token) : List String := tokens.filterMap (·.kind.closerLabel?)

@[simp] theorem closerLabels_nil : closerLabels [] = [] := rfl

@[simp] theorem closerLabels_append (front back : List Token) :
    closerLabels (front ++ back) = closerLabels front ++ closerLabels back := List.filterMap_append

theorem closerLabels_cons (t : Token) (rest : List Token) :
    closerLabels (t :: rest) = t.kind.closerLabel?.toList ++ closerLabels rest := by
  cases label : t.kind.closerLabel? <;> simp [closerLabels, label]

theorem mem_closerLabels {tokens : List Token} {label : String} :
    label ∈ closerLabels tokens ↔ ∃ t ∈ tokens, t.kind = .subroutineClose label := by
  simp only [closerLabels, List.mem_filterMap, TokenKind.closerLabel?_eq_some]

theorem closerLabel?_of_closes? {kind : TokenKind} (closesNone : kind.closes? = none) :
    kind.closerLabel? = none := by
  cases kind <;> first | rfl | cases closesNone

theorem label?_of_closes? {kind : TokenKind} {c : Char} (closes : kind.closes? = some c) :
    kind.label? = kind.closerLabel? := by
  cases kind <;> first | rfl | cases closes

variable {f : String → String} {kind : TokenKind}

def Target.mapLabel (f : String → String) : Target → Target
  | .named label => .named (f label)
  | .inline label => .inline (label.map f)

theorem mapLabel_reference (f : String → String) (r : Reference) :
    (TokenKind.reference r).mapLabel f = .reference { r with target := r.target.mapLabel f } := by
  obtain ⟨form, mode, instruction, target⟩ := r
  cases target <;> rfl

theorem mapLabel_closer? : (kind.mapLabel f).closer? = kind.closer? := by
  cases kind with
  | reference r =>
    obtain ⟨form, mode, instruction, target⟩ := r
    cases target <;> rfl
  | _ => rfl

theorem mapLabel_closes? : (kind.mapLabel f).closes? = kind.closes? := by
  cases kind with
  | reference r =>
    rw [mapLabel_reference]
    rfl
  | _ => rfl

theorem Target.mapLabel_label? (f : String → String) (target : Target) :
    (target.mapLabel f).label? = target.label?.map f := by
  cases target <;> rfl

theorem mapLabel_label? : (kind.mapLabel f).label? = kind.label?.map f := by
  cases kind with
  | reference r =>
    rw [mapLabel_reference]
    exact Target.mapLabel_label? f r.target
  | _ => rfl

theorem mapLabel_closerLabel? : (kind.mapLabel f).closerLabel? = kind.closerLabel?.map f := by
  cases kind with
  | reference r =>
    rw [mapLabel_reference]
    rfl
  | _ => rfl

theorem mapLabel_inclusion {name : String} :
    kind.mapLabel f = .inclusion name ↔ kind = .inclusion name := by
  cases kind with
  | reference r =>
    rw [mapLabel_reference]
    exact iff_of_false nofun nofun
  | _ => simp [TokenKind.mapLabel]

theorem mapLabel_macroDefinition {name : String} {captured : Bool} :
    kind.mapLabel f = .macroDefinition name captured ↔ kind = .macroDefinition name captured := by
  cases kind with
  | reference r =>
    rw [mapLabel_reference]
    exact iff_of_false nofun nofun
  | _ => simp [TokenKind.mapLabel]

theorem mapLabel_isTransparent :
    (kind.mapLabel f).isTransparent = kind.isTransparent := by
  cases kind with
  | reference r =>
    rw [mapLabel_reference]
    rfl
  | _ => rfl

theorem mapLabel_regular (plain : ∀ label, Plain label → Plain (f label))
    (spaced : ∀ label, ¬ Plain label → ¬ Plain (f label)) (regular : kind.Regular) :
    (kind.mapLabel f).Regular := by
  cases kind with
  | parentLabel label implied => exact ⟨plain label regular.1, regular.2⟩
  | childLabel label => exact plain label regular
  | subroutineClose label => exact spaced label regular
  | reference r =>
    obtain ⟨made, suits⟩ := regular
    cases target : r.target with
    | named label =>
      rw [target] at made suits
      simp only [TokenKind.mapLabel, target]
      rw [made]
      exact ⟨rfl, plain label suits.1, suits.2⟩
    | «inline» label =>
      rw [target] at made suits
      obtain ⟨⟨l, rfl, blank⟩, form⟩ := suits
      simp only [TokenKind.mapLabel, target]
      rw [made]
      exact ⟨rfl, ⟨f l, rfl, spaced l blank⟩, form⟩
  | _ => exact regular

end RuneAsm
