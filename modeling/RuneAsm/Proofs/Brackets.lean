import Mathlib
import RuneAsm.Expander

namespace RuneAsm

-- Nesting of brackets in a list of tokens. Reading goes from one stack of open brackets to another; a closing bracket
-- has to be the partner of the innermost open one and to carry the same label.

-- The bracket as which a token closes another.
def TokenKind.closes? : TokenKind → Option Char
  | .groupClose => some ']'
  | .subroutineClose _ => some '\x7d'
  | _ => none

theorem TokenKind.closer?_eq_square {kind : TokenKind} : kind.closer? = some ']' ↔ kind = .groupOpen := by
  cases kind with
  | reference r => cases target : r.target <;> simp [closer?, target]
  | _ => simp [closer?]

theorem TokenKind.closer?_eq_curly {kind : TokenKind} :
    kind.closer? = some '\x7d' ↔ ∃ r label, kind = .reference r ∧ r.target = .inline label := by
  cases kind with
  | reference r => cases target : r.target <;> simp [closer?, target]
  | _ => simp [closer?]

structure Pairs (opener closer : Token) : Prop where
  bracket : ∃ c, opener.kind.closer? = some c ∧ closer.kind.closes? = some c
  forth : opener.partner = some closer.id
  back : closer.partner = some opener.id
  label : opener.kind.label? = closer.kind.label?

theorem Pairs.reference {opener closer : Token} {label : String} (pairs : Pairs opener closer)
    (labelled : opener.kind.label? = some label) : ∃ r, opener.kind = .reference r := by
  obtain ⟨c, opens, _⟩ := pairs.bracket
  cases kind : opener.kind with
  | reference r => exact ⟨r, rfl⟩
  | groupOpen =>
    rw [kind] at labelled
    cases labelled
  | _ =>
    rw [kind] at opens
    cases opens

theorem Pairs.closer_kind {opener closer : Token} {label : String} (pairs : Pairs opener closer)
    (labelled : opener.kind.label? = some label) : closer.kind = .subroutineClose label := by
  obtain ⟨c, _, closes⟩ := pairs.bracket
  have same := pairs.label
  rw [labelled] at same
  cases kind : closer.kind <;> rw [kind] at closes same <;> cases closes <;> cases same
  rfl

-- The stacks hold the open brackets, innermost first.
inductive Nesting : List Token → List Token → List Token → Prop where
  | done (stack : List Token) : Nesting stack [] stack
  | plain {stack rest after : List Token} {t : Token} (opensNone : t.kind.closer? = none)
      (closesNone : t.kind.closes? = none) (alone : t.partner = none) (tail : Nesting stack rest after) :
      Nesting stack (t :: rest) after
  | opening {stack rest after : List Token} {t : Token} {c : Char} (opens : t.kind.closer? = some c)
      (tail : Nesting (t :: stack) rest after) : Nesting stack (t :: rest) after
  | closing {stack rest after : List Token} {opener t : Token} (pairs : Pairs opener t)
      (tail : Nesting stack rest after) : Nesting (opener :: stack) (t :: rest) after

def Balanced (tokens : List Token) : Prop := Nesting [] tokens []

theorem closer?_of_closes? {kind : TokenKind} {c : Char} (closes : kind.closes? = some c) :
    kind.closer? = none := by
  cases kind <;> simp_all [TokenKind.closes?, TokenKind.closer?]

namespace Nesting

variable {stack middle after extra tokens front back : List Token} {opener : Token}

theorem of_plain {t : Token} (nesting : Nesting stack (t :: tokens) after) (opensNone : t.kind.closer? = none)
    (closesNone : t.kind.closes? = none) : t.partner = none ∧ Nesting stack tokens after := by
  cases nesting with
  | plain _ _ alone tail => exact ⟨alone, tail⟩
  | opening opens _ =>
    rw [opensNone] at opens
    cases opens
  | closing pairs _ =>
    obtain ⟨_, _, closes⟩ := pairs.bracket
    rw [closesNone] at closes
    cases closes

theorem of_opening {t : Token} {c : Char} (nesting : Nesting stack (t :: tokens) after)
    (opens : t.kind.closer? = some c) : Nesting (t :: stack) tokens after := by
  cases nesting with
  | plain opensNone _ _ _ =>
    rw [opens] at opensNone
    cases opensNone
  | opening _ tail => exact tail
  | closing pairs _ =>
    obtain ⟨_, _, closes⟩ := pairs.bracket
    rw [closer?_of_closes? closes] at opens
    cases opens

theorem of_closing {t : Token} {c : Char} (nesting : Nesting stack (t :: tokens) after)
    (closes : t.kind.closes? = some c) :
    ∃ opener below, stack = opener :: below ∧ Pairs opener t ∧ Nesting below tokens after := by
  cases nesting with
  | plain _ closesNone _ _ =>
    rw [closes] at closesNone
    cases closesNone
  | opening opens _ =>
    rw [closer?_of_closes? closes] at opens
    cases opens
  | closing pairs tail => exact ⟨_, _, rfl, pairs, tail⟩

theorem append (first : Nesting stack front middle) (second : Nesting middle back after) :
    Nesting stack (front ++ back) after := by
  induction first with
  | done stack => exact second
  | plain opensNone closesNone alone tail ih => exact .plain opensNone closesNone alone (ih second)
  | opening opens tail ih => exact .opening opens (ih second)
  | closing pairs tail ih => exact .closing pairs (ih second)

theorem split (whole : Nesting stack (front ++ back) after) :
    ∃ middle, Nesting stack front middle ∧ Nesting middle back after := by
  induction front generalizing stack with
  | nil => exact ⟨stack, .done stack, whole⟩
  | cons t rest ih =>
    cases whole with
    | plain opensNone closesNone alone tail =>
      obtain ⟨middle, first, second⟩ := ih tail
      exact ⟨middle, .plain opensNone closesNone alone first, second⟩
    | opening opens tail =>
      obtain ⟨middle, first, second⟩ := ih tail
      exact ⟨middle, .opening opens first, second⟩
    | closing pairs tail =>
      obtain ⟨middle, first, second⟩ := ih tail
      exact ⟨middle, .closing pairs first, second⟩

theorem extend (nesting : Nesting stack tokens after) (extra : List Token) :
    Nesting (stack ++ extra) tokens (after ++ extra) := by
  induction nesting with
  | done stack => exact .done _
  | plain opensNone closesNone alone tail ih => exact .plain opensNone closesNone alone ih
  | opening opens tail ih => exact .opening opens ih
  | closing pairs tail ih => exact .closing pairs ih

-- The tokens up to the partner of a bracket that is open are balanced among themselves, whatever was opened
-- above it in the meantime.
theorem close_above (stack : List Token) (nesting : Nesting (stack ++ opener :: extra) tokens []) :
    ∃ inside closer rest, tokens = inside ++ closer :: rest ∧ Nesting stack inside [] ∧ Pairs opener closer ∧
      Nesting extra rest [] := by
  induction tokens generalizing stack with
  | nil =>
    generalize whole : stack ++ opener :: extra = full at nesting
    cases nesting
    simp at whole
  | cons t rest ih =>
    generalize whole : stack ++ opener :: extra = full at nesting
    cases nesting with
    | plain opensNone closesNone alone tail =>
      subst whole
      obtain ⟨inside, closer, later, rfl, inner, pairs, outer⟩ := ih _ tail
      exact ⟨t :: inside, closer, later, rfl, .plain opensNone closesNone alone inner, pairs, outer⟩
    | opening opens tail =>
      subst whole
      obtain ⟨inside, closer, later, rfl, inner, pairs, outer⟩ := ih (t :: stack) tail
      exact ⟨t :: inside, closer, later, rfl, .opening opens inner, pairs, outer⟩
    | closing pairs tail =>
      cases stack with
      | nil =>
        cases List.cons.inj whole with
        | intro same below =>
          subst same below
          exact ⟨[], t, rest, rfl, .done [], pairs, tail⟩
      | cons top stack =>
        cases List.cons.inj whole with
        | intro same below =>
          subst same below
          obtain ⟨inside, closer, later, rfl, inner, above, outer⟩ := ih _ tail
          exact ⟨t :: inside, closer, later, rfl, .closing pairs inner, above, outer⟩

theorem close (nesting : Nesting (opener :: extra) tokens []) :
    ∃ inside closer rest, tokens = inside ++ closer :: rest ∧ Balanced inside ∧ Pairs opener closer ∧
      Nesting extra rest [] := close_above [] nesting

-- A bracket that is opened in a balanced text is closed further on in it.
theorem partner {t : Token} {c : Char} (nesting : Nesting stack (front ++ t :: tokens) [])
    (opens : t.kind.closer? = some c) :
    ∃ inside closer back, tokens = inside ++ closer :: back ∧ Balanced inside ∧ Pairs t closer := by
  obtain ⟨middle, _, later⟩ := nesting.split
  obtain ⟨inside, closer, back, rfl, balanced, pairs, _⟩ := (later.of_opening opens).close
  exact ⟨inside, closer, back, rfl, balanced, pairs⟩

-- A bracket that is open was open before or has been read since.
theorem mem_after {t : Token} (nesting : Nesting stack tokens after) (isOpen : t ∈ after) :
    t ∈ stack ∨ t ∈ tokens := by
  induction nesting with
  | done stack => exact .inl isOpen
  | plain _ _ _ _ ih => exact (ih isOpen).imp_right (List.mem_cons_of_mem _)
  | opening _ _ ih =>
    rcases ih isOpen with below | later
    · rcases List.mem_cons.mp below with rfl | early
      · exact .inr List.mem_cons_self
      · exact .inl early
    · exact .inr (List.mem_cons_of_mem _ later)
  | closing _ _ ih => exact (ih isOpen).imp (List.mem_cons_of_mem _) (List.mem_cons_of_mem _)

-- A closing bracket closes one that was open before or has been read since.
theorem opened {t : Token} {c : Char} (nesting : Nesting stack (front ++ t :: tokens) after)
    (closes : t.kind.closes? = some c) : ∃ opener, (opener ∈ stack ∨ opener ∈ front) ∧ Pairs opener t := by
  obtain ⟨middle, before, later⟩ := nesting.split
  obtain ⟨opener, below, rfl, pairs, _⟩ := later.of_closing closes
  exact ⟨opener, before.mem_after List.mem_cons_self, pairs⟩

-- A bracket and its partner are kept or left out together.
theorem filter {keep : Token → Bool} (together : ∀ o c, Pairs o c → keep o = keep c)
    (nesting : Nesting stack tokens after) :
    Nesting (stack.filter keep) (tokens.filter keep) (after.filter keep) := by
  induction nesting with
  | done stack => exact .done _
  | @plain stack rest after t opensNone closesNone alone tail ih =>
    cases kept : keep t with
    | true => simpa [kept] using Nesting.plain opensNone closesNone alone ih
    | false => simpa [kept] using ih
  | @opening stack rest after t c opens tail ih =>
    cases kept : keep t with
    | true => simpa [kept] using Nesting.opening opens (by simpa [kept] using ih)
    | false => simpa [kept] using ih
  | @closing stack rest after opener t pairs tail ih =>
    have same := together _ _ pairs
    cases kept : keep t with
    | true => simpa [kept, same.trans kept] using Nesting.closing pairs ih
    | false => simpa [kept, same.trans kept] using ih

theorem map {φ : Token → Token} (known : Token → Prop)
    (paired : ∀ o c, known o → known c → Pairs o c → Pairs (φ o) (φ c))
    (opens : ∀ t, (φ t).kind.closer? = t.kind.closer?) (closes : ∀ t, (φ t).kind.closes? = t.kind.closes?)
    (alone : ∀ t, t.partner = none → (φ t).partner = none) (nesting : Nesting stack tokens after)
    (stackKnown : ∀ t ∈ stack, known t) (tokensKnown : ∀ t ∈ tokens, known t) :
    Nesting (stack.map φ) (tokens.map φ) (after.map φ) := by
  induction nesting with
  | done stack => exact .done _
  | @plain stack rest after t opensNone closesNone lone tail ih =>
    exact .plain ((opens t).trans opensNone) ((closes t).trans closesNone) (alone t lone)
      (ih stackKnown fun u member => tokensKnown u (List.mem_cons_of_mem _ member))
  | @opening stack rest after t c opened tail ih =>
    have knownHere : ∀ u ∈ t :: stack, known u := by
      intro u member
      rcases List.mem_cons.mp member with rfl | below
      · exact tokensKnown u (by simp)
      · exact stackKnown u below
    exact .opening ((opens t).trans opened)
      (ih knownHere fun u member => tokensKnown u (List.mem_cons_of_mem _ member))
  | @closing stack rest after opener t pairs tail ih =>
    exact .closing (paired opener t (stackKnown opener (by simp)) (tokensKnown t (by simp)) pairs)
      (ih (fun u member => stackKnown u (List.mem_cons_of_mem _ member))
        fun u member => tokensKnown u (List.mem_cons_of_mem _ member))

end Nesting

theorem Pairs.isTransparent_eq {opener closer : Token} (pairs : Pairs opener closer) :
    opener.isTransparent = closer.isTransparent := by
  obtain ⟨c, opens, closes⟩ := pairs.bracket
  unfold Token.isTransparent
  cases second : closer.kind with
  | groupClose =>
    rw [second] at closes
    cases closes
    rw [TokenKind.closer?_eq_square.mp opens]
    rfl
  | subroutineClose label =>
    rw [second] at closes
    cases closes
    obtain ⟨r, inner, kind, _⟩ := TokenKind.closer?_eq_curly.mp opens
    rw [kind]
    rfl
  | _ =>
    rw [second] at closes
    cases closes

namespace Balanced

variable {tokens front back inside : List Token} {opener closer : Token}

theorem anywhere (balanced : Balanced tokens) (stack : List Token) : Nesting stack tokens stack := by
  simpa using Nesting.extend balanced stack

theorem nil : Balanced [] := .done []

theorem append (first : Balanced front) (second : Balanced back) : Balanced (front ++ back) :=
  Nesting.append first second

theorem single {t : Token} (opensNone : t.kind.closer? = none) (closesNone : t.kind.closes? = none)
    (alone : t.partner = none) : Balanced [t] := .plain opensNone closesNone alone (.done [])

theorem enclose (pairs : Pairs opener closer) (balanced : Balanced inside) :
    Balanced (opener :: inside ++ [closer]) := by
  obtain ⟨c, opens, _⟩ := pairs.bracket
  exact .opening opens ((balanced.anywhere [opener]).append (.closing pairs (.done [])))

-- A bracket and its partner are kept or left out together.
theorem filter {keep : Token → Bool} (together : ∀ o c, Pairs o c → keep o = keep c)
    (balanced : Balanced tokens) : Balanced (tokens.filter keep) := Nesting.filter together balanced

theorem solid (balanced : Balanced tokens) : Balanced (tokens.filter (!·.isTransparent)) :=
  balanced.filter fun _ _ pairs => by rw [pairs.isTransparent_eq]

end Balanced

end RuneAsm
