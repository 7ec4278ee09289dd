import Mathlib
import RuneAsm.Proofs.Substitution

namespace RuneAsm

open Relation

-- Which texts can be unfolded. The words of a text name macros, whose bodies name macros again; unless one of them
-- comes back to itself this ends, at a depth and after a number of substitutions that the text and the bodies
-- determine. The depth is the length of the longest chain of invocations, and each pass takes one off it.

namespace Bodies

variable {bodies : Bodies} {xs ys rest text body : List Face} {face : Face} {name : String} {chain : List String}
variable {d n : Nat}

def Invokes (bodies : Bodies) (xs : List Face) (name : String) (body : List Face) : Prop :=
  (∃ face ∈ xs, face.kind.called? = some name) ∧ bodies.lookup name = some body

-- Every invocation is replaced, those in the bodies too: how deep they are nested, and how many there are.
inductive Unfolds (bodies : Bodies) : List Face → Nat → Nat → Prop where
  | done : Unfolds bodies [] 0 0
  | kept {face : Face} {rest : List Face} {d n : Nat} (noMacro : bodies.named? face = none)
      (later : Unfolds bodies rest d n) : Unfolds bodies (face :: rest) d n
  | replaced {face : Face} {body rest : List Face} {d n d' n' : Nat} (stands : bodies.named? face = some body)
      (inner : Unfolds bodies body d n) (later : Unfolds bodies rest d' n') :
      Unfolds bodies (face :: rest) (max (d + 1) d') (1 + n + n')

-- The invocations that a text has itself.
def invocations (bodies : Bodies) (xs : List Face) : Nat := xs.countP fun face => (bodies.named? face).isSome

theorem named?_eq_some : bodies.named? face = some body ↔
    ∃ name, face.kind.called? = some name ∧ bodies.lookup name = some body := Option.bind_eq_some_iff

theorem Invokes.later (invokes : bodies.Invokes rest name body) : bodies.Invokes (face :: rest) name body := by
  obtain ⟨⟨word, member, called⟩, found⟩ := invokes
  exact ⟨⟨word, List.mem_cons_of_mem _ member, called⟩, found⟩

theorem Invokes.cases (invokes : bodies.Invokes (face :: rest) name body) :
    bodies.named? face = some body ∨ bodies.Invokes rest name body := by
  obtain ⟨⟨word, member, called⟩, found⟩ := invokes
  rcases List.mem_cons.mp member with rfl | inRest
  · exact .inl (named?_eq_some.mpr ⟨name, called, found⟩)
  · exact .inr ⟨⟨word, inRest, called⟩, found⟩

namespace Unfolds

theorem append {d' n' : Nat} (early : Unfolds bodies xs d n) (late : Unfolds bodies ys d' n') :
    Unfolds bodies (xs ++ ys) (max d d') (n + n') := by
  induction early with
  | done => simpa using late
  | kept noMacro _ ih => exact .kept noMacro ih
  | replaced stands inner _ _ ih =>
    rw [max_assoc, Nat.add_assoc]
    exact .replaced stands inner ih

theorem unique {d' n' : Nat} (first : Unfolds bodies xs d n) (second : Unfolds bodies xs d' n') : d = d' ∧ n = n' := by
  induction first generalizing d' n' with
  | done =>
    cases second
    exact ⟨rfl, rfl⟩
  | kept noMacro _ ih =>
    cases second with
    | kept _ later => exact ih later
    | replaced stands _ _ =>
      rw [noMacro] at stands
      cases stands
  | replaced stands _ _ innerIh laterIh =>
    cases second with
    | kept noMacro _ =>
      rw [stands] at noMacro
      cases noMacro
    | replaced again inner later =>
      rw [stands] at again
      cases again
      obtain ⟨rfl, rfl⟩ := innerIh inner
      obtain ⟨rfl, rfl⟩ := laterIh later
      exact ⟨rfl, rfl⟩

end Unfolds

theorem mem_names (found : bodies.lookup name = some body) : name ∈ bodies.map Prod.fst := by
  obtain ⟨front, back, rfl, _⟩ := List.lookup_eq_some_iff.mp found
  simp

end Bodies

namespace Bodies.Unfolds

variable {bodies : Bodies} {xs ys : List Face} {d n : Nat}

end Bodies.Unfolds

end RuneAsm
