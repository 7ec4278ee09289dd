import Mathlib
import RuneAsm.Proofs.Ends
import RuneAsm.Proofs.LabelTable
import RuneAsm.Proofs.Renaming

namespace RuneAsm

-- Two runs side by side. They are alike when both reach states that correspond, or both stop with diagnostics of one
-- family. One mirrors the other when it also stops with the same failure, apart from failures that are excused. Label
-- tables correspond when the entries do, one by one, under a renaming of labels.

def Failure.SameKind (f f' : Failure) : Prop :=
  ∃ d d', f = .report d ∧ f' = .report d' ∧ d.cause.kind = d'.cause.kind

namespace Run

variable {S T A B : Type} {related : S → T → Prop}

def Alike (related : S → T → Prop) : Run S → Run T → Prop
  | .ok s, .ok s' => related s s'
  | .error stop, .error stop' => stop.failure.SameKind stop'.failure
  | _, _ => False

theorem alike_fail {s : S} {s' : T} {d d' : Diagnostic} (same : d.cause.kind = d'.cause.kind) :
    Alike related (fail s (.report d)) (fail s' (.report d')) := ⟨d, d', rfl, rfl, same⟩

theorem Alike.cases {x : Run S} {x' : Run T} (alike : Alike related x x') :
    (∃ s s', x = .ok s ∧ x' = .ok s' ∧ related s s') ∨
      ∃ stop stop', x = .error stop ∧ x' = .error stop' ∧ stop.failure.SameKind stop'.failure := by
  cases x with
  | ok s =>
    cases x' with
    | ok s' => exact .inl ⟨s, s', rfl, rfl, alike⟩
    | error stop' => exact alike.elim
  | error stop =>
    cases x' with
    | ok s' => exact alike.elim
    | error stop' => exact .inr ⟨stop, stop', rfl, rfl, alike⟩

theorem Alike.ok {x : Run S} {x' : Run T} {s : S} (alike : Alike related x x') (ran : x = .ok s) :
    ∃ s', x' = .ok s' ∧ related s s' := by
  rcases alike.cases with ⟨s, s', rfl, rfl, holds⟩ | ⟨stop, stop', rfl, rfl, _⟩
  · cases ran
    exact ⟨s', rfl, holds⟩
  · cases ran

theorem Alike.mono {x : Run S} {x' : Run T} {weaker : S → T → Prop} (alike : Alike related x x')
    (weakens : ∀ s s', x = .ok s → x' = .ok s' → related s s' → weaker s s') : Alike weaker x x' := by
  rcases alike.cases with ⟨s, s', rfl, rfl, holds⟩ | ⟨stop, stop', rfl, rfl, same⟩
  · exact weakens s s' rfl rfl holds
  · exact same

theorem Alike.andThen {x : Run S} {x' : Run T} {later : S → T → Prop} {next : S → Run S} {next' : T → Run T}
    (first : Alike related x x') (second : ∀ s s', related s s' → Alike later (next s) (next' s')) :
    Alike later (x.andThen next) (x'.andThen next') := by
  rcases first.cases with ⟨s, s', rfl, rfl, holds⟩ | ⟨stop, stop', rfl, rfl, same⟩
  · exact second s s' holds
  · exact same

-- Two loops over lists that agree but for elements to be passed over. The invariant speaks of what is still to
-- come on either side, and passing over an element keeps it.
theorem alike_each {step : S → A → Run S} {step' : T → B → Run T} {matched : A → B → Prop} {counts : A → Bool}
    {counts' : B → Bool} (inv : List A → List B → S → T → Prop)
    (left : ∀ x xs ys s s', counts x = false → inv (x :: xs) ys s s' → ∃ next, step s x = .ok next ∧ inv xs ys next s')
    (right : ∀ y xs ys s s', counts' y = false → inv xs (y :: ys) s s' →
      ∃ next, step' s' y = .ok next ∧ inv xs ys s next)
    (both : ∀ x y xs ys s s', matched x y → inv (x :: xs) (y :: ys) s s' →
      Alike (inv xs ys) (step s x) (step' s' y))
    {xs : List A} {ys : List B} (agree : List.Forall₂ matched (xs.filter counts) (ys.filter counts')) {s : S} {s' : T}
    (start : inv xs ys s s') : Alike (inv [] []) (each step s xs) (each step' s' ys) := by
  induction xs generalizing ys s s' with
  | nil =>
    induction ys generalizing s' with
    | nil => exact start
    | cons y ys ih =>
      have passed : counts' y = false := by
        by_contra counted
        rw [List.filter_cons_of_pos (by simpa using counted)] at agree
        cases agree
      obtain ⟨next, stepped, kept⟩ := right y [] ys s s' passed start
      rw [each_cons, stepped]
      rw [List.filter_cons_of_neg (by simp [passed])] at agree
      exact ih agree kept
  | cons x xs outer =>
    cases counted : counts x with
    | false =>
      obtain ⟨next, stepped, kept⟩ := left x xs ys s s' counted start
      rw [each_cons, stepped]
      rw [List.filter_cons_of_neg (by simp [counted])] at agree
      exact outer agree kept
    | true =>
      rw [List.filter_cons_of_pos counted] at agree
      induction ys generalizing s' with
      | nil => cases agree
      | cons y ys ih =>
        cases counted' : counts' y with
        | false =>
          obtain ⟨next, stepped, kept⟩ := right y (x :: xs) ys s s' counted' start
          rw [each_cons step', stepped]
          rw [List.filter_cons_of_neg (by simp [counted'])] at agree
          exact ih agree kept
        | true =>
          rw [List.filter_cons_of_pos counted'] at agree
          cases agree with
          | cons first later =>
            rw [each_cons, each_cons]
            exact (both x y xs ys s s' first start).andThen fun _ _ kept => outer later kept

variable {excused : Failure → Prop}

-- The second activity ends as the first one does, in a state that corresponds, unless the first stops with a failure
-- that is excused.
def Mirrors (excused : Failure → Prop) (related : S → T → Prop) (x : Run S) (x' : Run T) : Prop :=
  match x with
  | .ok s => ∃ s', x' = .ok s' ∧ related s s'
  | .error stop => excused stop.failure ∨ ∃ s', x' = .error ⟨stop.failure, s'⟩ ∧ related stop.state s'

abbrev Parallel (related : S → T → Prop) : Run S → Run T → Prop := Mirrors (fun _ => False) related

-- All that the first activity's failure says is that nothing is asked of the second.
abbrev Follows (related : S → T → Prop) : Run S → Run T → Prop := Mirrors (fun _ => True) related

theorem mirrors_ok {s : S} {s' : T} (same : related s s') : Mirrors excused related (.ok s) (.ok s') := ⟨s', rfl, same⟩

theorem mirrors_fail {s : S} {s' : T} (same : related s s') (f : Failure) :
    Mirrors excused related (fail s f) (fail s' f) := .inr ⟨s', rfl, same⟩

theorem mirrors_excused {s : S} {f : Failure} {x' : Run T} (excuse : excused f) :
    Mirrors excused related (fail s f) x' := .inl excuse

theorem mirrors_self (x : Run S) : Mirrors excused Eq x x := by
  cases x with
  | ok s => exact mirrors_ok rfl
  | error stop => exact .inr ⟨stop.state, rfl, rfl⟩

theorem Mirrors.ok {x : Run S} {x' : Run T} {s : S} (mirrors : Mirrors excused related x x') (ran : x = .ok s) :
    ∃ s', x' = .ok s' ∧ related s s' := by
  subst ran
  exact mirrors

theorem Mirrors.error {x : Run S} {x' : Run T} {stop : Stop S} (mirrors : Mirrors excused related x x')
    (stopped : x = .error stop) :
    excused stop.failure ∨ ∃ s', x' = .error ⟨stop.failure, s'⟩ ∧ related stop.state s' := by
  subst stopped
  exact mirrors

theorem Mirrors.mono {x : Run S} {x' : Run T} {weaker : S → T → Prop} (mirrors : Mirrors excused related x x')
    (weakens : ∀ s s', related s s' → weaker s s') : Mirrors excused weaker x x' := by
  cases x with
  | ok s =>
    obtain ⟨s', ran, same⟩ := mirrors
    exact ⟨s', ran, weakens s s' same⟩
  | error stop =>
    apply mirrors.imp_right
    intro found
    obtain ⟨s', stopped, same⟩ := found
    exact ⟨s', stopped, weakens stop.state s' same⟩

theorem Mirrors.andThen {x : Run S} {x' : Run T} {later : S → T → Prop} {next : S → Run S} {next' : T → Run T}
    (first : Mirrors excused related x x') (stopped : ∀ s s', related s s' → later s s')
    (second : ∀ s s', related s s' → Mirrors excused later (next s) (next' s')) :
    Mirrors excused later (x.andThen next) (x'.andThen next') := by
  cases x with
  | ok s =>
    obtain ⟨s', rfl, same⟩ := first
    exact second s s' same
  | error stop =>
    apply first.imp_right
    intro found
    obtain ⟨s', rfl, same⟩ := found
    exact ⟨s', rfl, stopped stop.state s' same⟩

theorem mirrors_each {step : S → A → Run S} {step' : T → A → Run T} {xs : List A}
    (keeps : ∀ s s', ∀ x ∈ xs, related s s' → Mirrors excused related (step s x) (step' s' x)) {s : S} {s' : T}
    (start : related s s') : Mirrors excused related (each step s xs) (each step' s' xs) := by
  induction xs generalizing s s' with
  | nil => exact mirrors_ok start
  | cons x xs ih =>
    apply (keeps s s' x List.mem_cons_self start).andThen (fun _ _ same => same)
    intro next next' same
    exact ih (fun s s' y member => keeps s s' y (List.mem_cons_of_mem x member)) same

theorem eq_of_parallel {x x' : Run S} (parallel : Parallel Eq x x') : x' = x := by
  cases x with
  | ok s =>
    obtain ⟨_, rfl, rfl⟩ := parallel
    rfl
  | error stop =>
    obtain ⟨_, rfl, rfl⟩ := parallel.resolve_left id
    rfl

-- Both activities succeed, in states that correspond, or neither does.
def Together (related : S → T → Prop) : Run S → Run T → Prop
  | .ok s, .ok s' => related s s'
  | .error _, .error _ => True
  | _, _ => False

theorem Together.cases {x : Run S} {x' : Run T} (together : Together related x x') :
    (∃ s s', x = .ok s ∧ x' = .ok s' ∧ related s s') ∨ ∃ stop stop', x = .error stop ∧ x' = .error stop' := by
  cases x with
  | ok s =>
    cases x' with
    | ok s' => exact .inl ⟨s, s', rfl, rfl, together⟩
    | error stop' => exact together.elim
  | error stop =>
    cases x' with
    | ok s' => exact together.elim
    | error stop' => exact .inr ⟨stop, stop', rfl, rfl⟩

theorem Together.andThen {x : Run S} {x' : Run T} {later : S → T → Prop} {next : S → Run S} {next' : T → Run T}
    (first : Together related x x') (second : ∀ s s', related s s' → Together later (next s) (next' s')) :
    Together later (x.andThen next) (x'.andThen next') := by
  rcases first.cases with ⟨s, s', rfl, rfl, same⟩ | ⟨stop, stop', rfl, rfl⟩
  · exact second s s' same
  · trivial

theorem Mirrors.together {x : Run S} {x' : Run T} (parallel : Parallel related x x') : Together related x x' := by
  cases x with
  | ok s =>
    obtain ⟨s', rfl, same⟩ := parallel
    exact same
  | error stop =>
    obtain ⟨s', rfl, _⟩ := parallel.resolve_left id
    trivial

end Run

structure Symbol.Like (σ : String → String) (s s' : Symbol) : Prop where
  name : s'.name = σ s.name
  address : s'.address = s.address
  anonymous : s'.anonymous = s.anonymous
  plain : s.anonymous = false → Plain s.name

def SymbolTable.Like (σ : String → String) (t t' : SymbolTable) : Prop :=
  List.Forall₂ (Symbol.Like σ) t.entries t'.entries

namespace SymbolTable.Like

variable {σ : String → String} {t t' : SymbolTable} {x : String} {address : Int} {location location' : Location}
variable {anonymous : Bool}

theorem size (like : SymbolTable.Like σ t t') : t'.size = t.size := like.length_eq.symm

theorem find? (renames : Renaming σ) (like : SymbolTable.Like σ t t') (x : String) :
    t.find? x = none ∧ t'.find? (σ x) = none ∨
      ∃ s s', t.find? x = some s ∧ t'.find? (σ x) = some s' ∧ Symbol.Like σ s s' := by
  unfold SymbolTable.find?
  obtain ⟨entries⟩ := t
  obtain ⟨entries'⟩ := t'
  replace like : List.Forall₂ (Symbol.Like σ) entries entries' := like
  induction like with
  | nil => exact .inl ⟨rfl, rfl⟩
  | @cons s s' _ _ first _ ih =>
    by_cases here : s.name = x
    · have there : s'.name = σ x := by rw [first.name, here]
      exact .inr ⟨s, s', by simp [here], by simp [there], first⟩
    · have there : s'.name ≠ σ x := by
        rw [first.name]
        exact fun same => here (renames.injective same)
      simpa [here, there] using ih

theorem mem_names (renames : Renaming σ) (like : SymbolTable.Like σ t t') : σ x ∈ t'.names ↔ x ∈ t.names := by
  rw [← find?_isSome, ← find?_isSome]
  rcases like.find? renames x with ⟨none, none'⟩ | ⟨s, s', found, found', _⟩
  · simp [none, none']
  · simp [found, found']

theorem contains (renames : Renaming σ) (like : SymbolTable.Like σ t t') : t'.contains (σ x) = t.contains x := by
  rw [Bool.eq_iff_iff, contains_iff, contains_iff]
  exact like.mem_names renames

theorem addressOf? (renames : Renaming σ) (like : SymbolTable.Like σ t t') :
    t'.addressOf? (σ x) = t.addressOf? x := by
  unfold SymbolTable.addressOf?
  rcases like.find? renames x with ⟨none, none'⟩ | ⟨s, s', found, found', same⟩
  · rw [none, none']
  · rw [found, found']
    exact same.address

theorem append (like : SymbolTable.Like σ t t') {s s' : Symbol} (last : Symbol.Like σ s s') :
    SymbolTable.Like σ ⟨t.entries ++ [s]⟩ ⟨t'.entries ++ [s']⟩ :=
  List.rel_append like (.cons last .nil)

theorem define (renames : Renaming σ) (like : SymbolTable.Like σ t t') (x : String)
    (plain : anonymous = false → Plain x) (location location' : Location) :
    (∃ s s', t.define x location anonymous = .error s ∧ t'.define (σ x) location' anonymous = .error s') ∨
      ∃ next next', t.define x location anonymous = .ok next ∧
        t'.define (σ x) location' anonymous = .ok next' ∧ SymbolTable.Like σ next next' := by
  unfold SymbolTable.define
  rcases like.find? renames x with ⟨none, none'⟩ | ⟨s, s', found, found', _⟩
  · rw [none, none']
    exact .inr ⟨_, _, rfl, rfl, like.append ⟨rfl, rfl, rfl, plain⟩⟩
  · rw [found, found']
    exact .inl ⟨s, s', rfl, rfl⟩

theorem erase (renames : Renaming σ) (like : SymbolTable.Like σ t t') (x : String) :
    SymbolTable.Like σ (t.erase x) (t'.erase (σ x)) := by
  refine List.rel_filter ?_ like
  intro s s' same
  simp [same.name, renames.injective.eq_iff]

theorem clearAddresses (like : SymbolTable.Like σ t t') :
    SymbolTable.Like σ t.clearAddresses t'.clearAddresses := by
  refine List.rel_map ?_ like
  intro s s' same
  exact ⟨same.name, rfl, same.anonymous, same.plain⟩

theorem modifyAddress (renames : Renaming σ) (like : SymbolTable.Like σ t t') (x : String) (address : Int) :
    SymbolTable.Like σ (t.modifyAddress x address) (t'.modifyAddress (σ x) address) := by
  refine List.rel_map ?_ like
  intro s s' same
  by_cases here : s.name = x
  · have there : s'.name = σ x := by rw [same.name, here]
    simp only [here, there, if_true]
    exact ⟨rfl, rfl, same.anonymous, here ▸ same.plain⟩
  · have there : s'.name ≠ σ x := by
      rw [same.name]
      exact fun equal => here (renames.injective equal)
    simp only [here, there, if_false]
    exact same

-- A label that is not in the table yet enters it as a named one, which an inline subroutine never does.
theorem place (renames : Renaming σ) (like : SymbolTable.Like σ t t') (x : String) (known : x ∈ t.names ∨ Plain x)
    (address : Int) (location location' : Location) :
    (∃ s s', t.place x address location = .error s ∧ t'.place (σ x) address location' = .error s') ∨
      ∃ next next', t.place x address location = .ok next ∧ t'.place (σ x) address location' = .ok next' ∧
        SymbolTable.Like σ next next' := by
  unfold SymbolTable.place
  rcases like.find? renames x with ⟨none, none'⟩ | ⟨s, s', found, found', same⟩
  · have plain := known.resolve_left (find?_eq_none.mp none)
    rw [none, none']
    exact .inr ⟨_, _, rfl, rfl, like.append ⟨rfl, rfl, rfl, fun _ => plain⟩⟩
  · rw [found, found']
    dsimp only
    rw [same.address]
    cases s.address with
    | some a => exact .inl ⟨s, s', rfl, rfl⟩
    | none => exact .inr ⟨_, _, rfl, rfl, like.modifyAddress renames x address⟩

theorem addresses (renames : Renaming σ) (like : SymbolTable.Like σ t t') : t'.addresses = t.addresses := by
  unfold SymbolTable.addresses
  obtain ⟨entries⟩ := t
  obtain ⟨entries'⟩ := t'
  replace like : List.Forall₂ (Symbol.Like σ) entries entries' := like
  induction like with
  | nil => rfl
  | @cons s s' _ _ first _ ih =>
    rw [List.filterMap_cons, List.filterMap_cons, ih, first.anonymous, first.address]
    cases named : s.anonymous with
    | true => rfl
    | false => rw [first.name, renames.plain _ (first.plain named)]

end SymbolTable.Like

-- What laying out asks of the tables of two programs: a relation that shows in the addresses, and that is kept when a
-- label and its counterpart are placed at one address.
structure Tracks (σ : String → String) (tables : SymbolTable → SymbolTable → Prop) : Prop where
  plain : ∀ x, Plain x → σ x = x
  addressOf? : ∀ t t', tables t t' → ∀ x, t'.addressOf? (σ x) = t.addressOf? x
  place : ∀ t t', tables t t' → ∀ x, (x ∈ t.names ∨ Plain x) → ∀ address location location',
    (∃ s s', t.place x address location = .error s ∧ t'.place (σ x) address location' = .error s') ∨
      ∃ next next', t.place x address location = .ok next ∧ t'.place (σ x) address location' = .ok next' ∧
        tables next next'

theorem tracks_like {σ : String → String} (renames : Renaming σ) : Tracks σ (SymbolTable.Like σ) :=
  ⟨renames.plain, fun _ _ like _ => like.addressOf? renames, fun _ _ like => like.place renames⟩

end RuneAsm
