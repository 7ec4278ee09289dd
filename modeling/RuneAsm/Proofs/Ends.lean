import RuneAsm.Failure

namespace RuneAsm

-- How activities end. An outcome is judged by a property of the state it reaches and a property of the failure it stops
-- with, or of the state that the failure left; these judgements pass through sequencing and through loops.

namespace Failure

-- A diagnostic of one of the given families; in particular none of the failures that no text produces.
def Within (kinds : List Kind) (f : Failure) : Prop := ∃ d, f = .report d ∧ d.cause.kind ∈ kinds

theorem Within.mono {kinds more : List Kind} {f : Failure} (within : f.Within kinds) (fewer : kinds ⊆ more) :
    f.Within more := by
  obtain ⟨d, rfl, member⟩ := within
  exact ⟨d, rfl, fewer member⟩

end Failure

namespace Run

variable {σ α : Type} {good mid : σ → Prop} {bad : Failure → Prop}

-- What a failed activity left behind is not judged here; statements about it are made on the state itself.
def Ends (good : σ → Prop) (bad : Failure → Prop) (x : Run σ) : Prop :=
  match x with
  | .ok s => good s
  | .error stop => bad stop.failure

@[simp] theorem ends_ok (s : σ) : Ends good bad (.ok s) ↔ good s := Iff.rfl

@[simp] theorem ends_error (stop : Stop σ) : Ends good bad (.error stop) ↔ bad stop.failure := Iff.rfl

@[simp] theorem ends_fail (s : σ) (f : Failure) : Ends good bad (fail s f) ↔ bad f := Iff.rfl

theorem Ends.ok {x : Run σ} {s : σ} (ends : Ends good bad x) (ran : x = .ok s) : good s := by
  subst ran
  exact ends

theorem Ends.error {x : Run σ} {stop : Stop σ} (ends : Ends good bad x) (stopped : x = .error stop) :
    bad stop.failure := by
  subst stopped
  exact ends

theorem Ends.mono {x : Run σ} {better : σ → Prop} {worse : Failure → Prop} (ends : Ends good bad x)
    (state : ∀ s, good s → better s) (failure : ∀ f, bad f → worse f) : Ends better worse x := by
  cases x with
  | ok s => exact state s ends
  | error stop => exact failure _ ends

theorem Ends.andThen {x : Run σ} {next : σ → Run σ} (first : Ends mid bad x)
    (second : ∀ s, mid s → Ends good bad (next s)) : Ends good bad (x.andThen next) := by
  cases x with
  | ok s => exact second s first
  | error stop => exact first

-- The invariant speaks of the elements that are still to come.
theorem ends_each {step : σ → α → Run σ} (inv : List α → σ → Prop)
    (keeps : ∀ s x rest, inv (x :: rest) s → Ends (inv rest) bad (step s x)) {s : σ} {xs : List α}
    (start : inv xs s) : Ends (inv []) bad (each step s xs) := by
  induction xs generalizing s with
  | nil => exact start
  | cons x rest ih => exact (keeps s x rest start).andThen fun s' reached => ih reached

theorem andThen_eq_ok {x : Run σ} {next : σ → Run σ} {s : σ} (ran : x.andThen next = .ok s) :
    ∃ middle, x = .ok middle ∧ next middle = .ok s := by
  cases x with
  | ok middle => exact ⟨middle, rfl, ran⟩
  | error stop => cases ran

theorem andThen_eq_error {x : Run σ} {next : σ → Run σ} {stop : Stop σ} (failed : x.andThen next = .error stop) :
    x = .error stop ∨ ∃ middle, x = .ok middle ∧ next middle = .error stop := by
  cases x with
  | ok middle => exact .inr ⟨middle, rfl, failed⟩
  | error earlier => exact .inl failed

theorem eq_ok_of_toOption {ε : Type} {x : Except ε σ} {s : σ} (found : x.toOption = some s) : x = .ok s := by
  cases x with
  | ok middle =>
    cases found
    rfl
  | error stop => cases found

theorem eq_error_of_failure? {x : Run σ} {f : Failure} (failed : x.failure? = some f) :
    ∃ stop, x = .error stop ∧ stop.failure = f := by
  cases x with
  | ok s => cases failed
  | error stop => exact ⟨stop, rfl, Option.some.inj failed⟩

theorem each_append (step : σ → α → Run σ) (s : σ) (xs ys : List α) :
    each step s (xs ++ ys) = (each step s xs).andThen (fun s => each step s ys) := by
  induction xs generalizing s with
  | nil => rfl
  | cons x rest ih =>
    simp only [List.cons_append, each_cons]
    cases step s x with
    | ok middle => exact ih middle
    | error stop => rfl

variable {left : σ → Prop}

-- What a failed activity left is judged here, and not why it failed.
def Leaves (good left : σ → Prop) (x : Run σ) : Prop :=
  match x with
  | .ok s => good s
  | .error stop => left stop.state

@[simp] theorem leaves_ok (s : σ) : Leaves good left (.ok s) ↔ good s := Iff.rfl

@[simp] theorem leaves_error (stop : Stop σ) : Leaves good left (.error stop) ↔ left stop.state := Iff.rfl

@[simp] theorem leaves_fail (s : σ) (f : Failure) : Leaves good left (fail s f) ↔ left s := Iff.rfl

theorem Leaves.ok {x : Run σ} {s : σ} (leaves : Leaves good left x) (ran : x = .ok s) : good s := by
  subst ran
  exact leaves

theorem Leaves.error {x : Run σ} {stop : Stop σ} (leaves : Leaves good left x) (stopped : x = .error stop) :
    left stop.state := by
  subst stopped
  exact leaves

theorem Leaves.mono {x : Run σ} {better worse : σ → Prop} (leaves : Leaves good left x)
    (reached : ∀ s, good s → better s) (stopped : ∀ s, left s → worse s) : Leaves better worse x := by
  cases x with
  | ok s => exact reached s leaves
  | error stop => exact stopped _ leaves

theorem Leaves.state {x : Run σ} (leaves : Leaves good good x) : good x.state := by
  cases x with
  | ok s => exact leaves
  | error stop => exact leaves

theorem Leaves.andThen {x : Run σ} {next : σ → Run σ} (first : Leaves mid left x)
    (second : ∀ s, mid s → Leaves good left (next s)) : Leaves good left (x.andThen next) := by
  cases x with
  | ok s => exact second s first
  | error stop => exact first

theorem leaves_each {step : σ → α → Run σ} {inv : σ → Prop} {s : σ} {xs : List α} (start : inv s)
    (keeps : ∀ s, ∀ x ∈ xs, inv s → Leaves inv inv (step s x)) : Leaves inv inv (each step s xs) := by
  induction xs generalizing s with
  | nil => exact start
  | cons x rest ih =>
    apply (keeps s x List.mem_cons_self start).andThen
    intro next reached
    exact ih reached fun s y later => keeps s y (List.mem_cons_of_mem _ later)

end Run

end RuneAsm
