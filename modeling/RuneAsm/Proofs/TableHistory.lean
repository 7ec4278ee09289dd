import Mathlib
import RuneAsm.Proofs.LabelTable

namespace RuneAsm.SymbolTable

-- The label table as the outcome of its history. Of the calls that were made on a table, each entry shows two: the one
-- that put its name in, after which it was not taken out again, and the one that gave it its address, after which no
-- addresses were taken back. What the table holds, and in which order, follows from the list of calls alone.

inductive Call where
  | define (name : String) (location : Location) (anonymous : Bool)
  | erase (name : String)
  | place (name : String) (address : Int) (location : Location)
  | clear
deriving DecidableEq, Repr

namespace Call

-- A call that is refused tells which entry is in its way.
def perform (t : SymbolTable) : Call → Except Symbol SymbolTable
  | .define name location anonymous => t.define name location anonymous
  | .erase name => .ok (t.erase name)
  | .place name address location => t.place name address location
  | .clear => .ok t.clearAddresses

-- The entry that a call makes for a name that is not in the table.
def entry? : Call → Option Symbol
  | .define name location anonymous => some ⟨name, location, none, anonymous⟩
  | .place name address location => some ⟨name, location, some address, false⟩
  | _ => none

-- The name that is in the table after the call, whether or not the call is refused.
def enters? (call : Call) : Option String := call.entry?.map (·.name)

theorem ne_erase {call : Call} {name other : String} (enters : call.enters? = some name) : call ≠ .erase other := by
  rintro rfl
  cases enters

end Call

def after (t : SymbolTable) (call : Call) : SymbolTable :=
  match call.perform t with
  | .ok next => next
  | .error _ => t

def replay (calls : List Call) : SymbolTable := calls.foldl after {}

theorem replay_snoc (calls : List Call) (call : Call) : replay (calls ++ [call]) = (replay calls).after call :=
  List.foldl_concat ..

variable {t next : SymbolTable} {calls : List Call} {call : Call} {name other : String} {i j k : Nat} {a : Int}
variable {s made : Symbol}

theorem addressOf?_of_mem (distinct : t.Distinct) (member : s ∈ t.entries) : t.addressOf? s.name = s.address := by
  rw [addressOf?, find?_of_mem distinct member]
  rfl

theorem names_snoc : (⟨t.entries ++ [made]⟩ : SymbolTable).names = t.names ++ [made.name] := by
  simp [names]

-- A declaration is refused if the name is there, and a placement if the name has its address; nothing else is.
def Refuses (t : SymbolTable) : Call → Prop
  | .define name _ _ => name ∈ t.names
  | .place name _ _ => ∃ a, t.addressOf? name = some a
  | _ => False

theorem Refuses.present (refused : t.Refuses call) : ∃ name ∈ t.names, call.enters? = some name := by
  cases call with
  | define name location anonymous => exact ⟨name, refused, rfl⟩
  | place name address location =>
    obtain ⟨a, placed⟩ := refused
    obtain ⟨s, found, _⟩ := Option.bind_eq_some_iff.mp placed
    exact ⟨name, find?_isSome.mp ⟨s, found⟩, rfl⟩
  | erase | clear => exact refused.elim

theorem perform_refused : (∃ s, call.perform t = .error s) ↔ t.Refuses call := by
  cases call with
  | define name location anonymous =>
    simp only [Call.perform, Refuses, define, ← find?_isSome]
    cases t.find? name <;> simp
  | place name address location =>
    simp only [Call.perform, Refuses]
    rcases place_cases t name address location with ⟨placed, refused⟩ | ⟨free, next, ran, _⟩
    · exact iff_of_true refused placed
    · simp [free, ran]
  | erase name => simp [Call.perform, Refuses]
  | clear => simp [Call.perform, Refuses]

inductive Changes (t : SymbolTable) : Call → SymbolTable → Prop where
  | refused {call : Call} (refused : t.Refuses call) : Changes t call t
  | inserted {call : Call} {made : Symbol} (makes : call.entry? = some made) (new : made.name ∉ t.names) :
      Changes t call ⟨t.entries ++ [made]⟩
  | placed {name : String} {address : Int} {location : Location} (present : name ∈ t.names)
      (free : t.addressOf? name = none) : Changes t (.place name address location) (t.modifyAddress name address)
  | erased {name : String} : Changes t (.erase name) (t.erase name)
  | cleared : Changes t .clear t.clearAddresses

theorem after_changes (t : SymbolTable) (call : Call) : Changes t call (t.after call) := by
  unfold after
  cases ran : call.perform t with
  | error s => exact .refused (perform_refused.mp ⟨s, ran⟩)
  | ok next =>
    cases call with
    | define name location anonymous =>
      obtain ⟨new, rfl⟩ := define_ok_iff.mp ran
      exact .inserted rfl new
    | place name address location =>
      have ran : t.place name address location = .ok next := ran
      unfold place at ran
      cases found : t.find? name with
      | none =>
        rw [found] at ran
        cases ran
        exact .inserted rfl (find?_eq_none.mp found)
      | some s =>
        rw [found] at ran
        cases free : s.address with
        | some a => simp [free] at ran
        | none =>
          obtain rfl : t.modifyAddress name address = next := by simpa [free] using ran
          exact .placed (find?_isSome.mp ⟨s, found⟩) (by simp [addressOf?, found, free])
    | erase name =>
      cases ran
      exact .erased
    | clear =>
      cases ran
      exact .cleared

theorem after_of_refused (refused : t.Refuses call) : t.after call = t := by
  obtain ⟨s, failed⟩ := perform_refused.mpr refused
  simp [after, failed]

-- What is left of an entry after a call, as far as the entry is not new.
structure Carries (t : SymbolTable) (call : Call) (s later : Symbol) : Prop where
  name : later.name = s.name
  location : later.location = s.location
  anonymous : later.anonymous = s.anonymous
  address : ∀ a, later.address = some a ↔ s.address = some a ∧ call ≠ .clear ∨
    ∃ location, call = .place s.name a location ∧ ¬ t.Refuses call

theorem carries_same (other : call ≠ .clear)
    (unplaced : ∀ a location, call = .place s.name a location → t.Refuses call) : Carries t call s s := by
  refine ⟨rfl, rfl, rfl, ?_⟩
  intro a
  constructor
  · intro placed
    exact .inl ⟨placed, other⟩
  · rintro (⟨placed, _⟩ | ⟨location, same, accepted⟩)
    · exact placed
    · exact absurd (unplaced a location same) accepted

namespace Changes

theorem distinct (changes : Changes t call next) (before : t.Distinct) : next.Distinct := by
  cases changes with
  | refused => exact before
  | inserted makes new =>
    rw [Distinct, names_snoc]
    exact before.append (List.nodup_singleton _) (by simpa using new)
  | placed => rwa [Distinct, names_modifyAddress]
  | erased => exact distinct_erase before
  | cleared => rwa [Distinct, names_clearAddresses]

theorem mem_names (changes : Changes t call next) :
    name ∈ next.names ↔ call.enters? = some name ∨ name ∈ t.names ∧ call ≠ .erase name := by
  cases changes with
  | refused refused =>
    obtain ⟨own, present, enters⟩ := refused.present
    have stays : call ≠ .erase name := Call.ne_erase enters
    rw [enters]
    grind
  | @inserted _ made makes new =>
    have enters : call.enters? = some made.name := by rw [Call.enters?, makes]; rfl
    have stays : call ≠ .erase name := Call.ne_erase enters
    rw [names_snoc, enters]
    grind
  | placed present free =>
    rw [names_modifyAddress]
    simp only [Call.enters?, Call.entry?, Option.map_some, Option.some.injEq]
    grind
  | erased =>
    rw [names_erase]
    simp only [Call.enters?, Call.entry?, Option.map_none]
    grind
  | cleared =>
    rw [names_clearAddresses]
    simp [Call.enters?, Call.entry?]

-- Every entry is new or was there before.
theorem entries (changes : Changes t call next) (distinct : t.Distinct) {later : Symbol} (member : later ∈ next.entries) :
    call.entry? = some later ∧ later.name ∉ t.names ∨ ∃ s ∈ t.entries, Carries t call s later := by
  cases changes with
  | refused refused =>
    refine .inr ⟨later, member, carries_same ?_ fun _ _ _ => refused⟩
    rintro rfl
    exact refused
  | @inserted _ made makes new =>
    rcases List.mem_append.mp member with old | recent
    · refine .inr ⟨later, old, carries_same ?_ ?_⟩
      · rintro rfl
        cases makes
      · rintro a location rfl
        cases makes
        exact absurd (List.mem_map_of_mem old) new
    · obtain rfl := List.mem_singleton.mp recent
      exact .inl ⟨makes, new⟩
  | @placed own address location present free =>
    obtain ⟨s, old, rfl⟩ := List.mem_map.mp member
    have accepted : ¬ t.Refuses (.place own address location) := by simp [Refuses, free]
    refine .inr ⟨s, old, ?_⟩
    by_cases same : s.name = own
    · subst same
      have unplaced : s.address = none := (addressOf?_of_mem distinct old).symm.trans free
      refine ⟨by simp, by simp, by simp, ?_⟩
      intro a
      simp only [if_true, unplaced, Call.place.injEq]
      grind
    · rw [if_neg same]
      apply carries_same (by simp)
      rintro a place ⟨⟩
      exact absurd rfl same
  | erased =>
    have old := List.mem_of_mem_filter member
    exact .inr ⟨later, old, carries_same (by simp) (by simp)⟩
  | cleared =>
    obtain ⟨s, old, rfl⟩ := List.mem_map.mp member
    exact .inr ⟨s, old, rfl, rfl, rfl, by simp⟩

end Changes

-- The call at this position put the name in. Whenever an earlier call did, the name was taken out in between; after
-- this one it was not.
structure Inserted (calls : List Call) (name : String) (i : Nat) : Prop where
  enters : ∃ call, calls[i]? = some call ∧ call.enters? = some name
  anew : ∀ j call, j < i → calls[j]? = some call → call.enters? = some name →
    ∃ k, j < k ∧ k < i ∧ calls[k]? = some (.erase name)
  kept : ∀ k, i < k → calls[k]? ≠ some (.erase name)

-- The call at this position gave the name an address and was not refused, and addresses were not taken back after it.
structure Placed (calls : List Call) (name : String) (k : Nat) (address : Int) : Prop where
  call : ∃ location next, calls[k]? = some (.place name address location) ∧
    (replay (calls.take k)).place name address location = .ok next
  kept : ∀ later, k < later → calls[later]? ≠ some .clear

theorem Inserted.lt (inserted : Inserted calls name i) : i < calls.length := by
  obtain ⟨call, found, _⟩ := inserted.enters
  exact (List.getElem?_eq_some_iff.mp found).1

theorem Inserted.unique (first : Inserted calls name i) (second : Inserted calls name j) : i = j := by
  have ordered {i j : Nat} (first : Inserted calls name i) (second : Inserted calls name j) : ¬ i < j := by
    intro before
    obtain ⟨call, found, enters⟩ := first.enters
    obtain ⟨k, later, _, erased⟩ := second.anew i call before found enters
    exact first.kept k later erased
  have one := ordered first second
  have two := ordered second first
  omega

theorem existsUnique_inserted : (∃! i, Inserted calls name i) ↔ ∃ i, Inserted calls name i := by
  constructor
  · exact ExistsUnique.exists
  · rintro ⟨i, inserted⟩
    exact ⟨i, inserted, fun j other => other.unique inserted⟩

-- If a name entered and was not taken out since, the first call of that kind is the one that put it in.
theorem exists_inserted (found : calls[j]? = some call) (enters : call.enters? = some name)
    (kept : ∀ k, j < k → calls[k]? ≠ some (.erase name)) : ∃ i, Inserted calls name i := by
  classical
  have lasting : ∃ i : Nat, (∃ call, calls[i]? = some call ∧ call.enters? = some name) ∧
      ∀ k : Nat, i < k → calls[k]? ≠ some (.erase name) := ⟨j, ⟨call, found, enters⟩, kept⟩
  obtain ⟨⟨first, here, enters⟩, stays⟩ := Nat.find_spec lasting
  refine ⟨Nat.find lasting, ⟨first, here, enters⟩, ?_, stays⟩
  intro earlier other before there alike
  have gone := Nat.find_min lasting before
  push Not at gone
  obtain ⟨k, later, erased⟩ := gone ⟨other, there, alike⟩
  refine ⟨k, later, ?_, erased⟩
  by_contra beyond
  rcases Nat.lt_or_eq_of_le (Nat.not_lt.mp beyond) with after | rfl
  · exact stays k after erased
  · rw [erased] at here
    cases here
    exact Call.ne_erase enters rfl

theorem getElem?_snoc_cases {found : Call} (there : (calls ++ [call])[i]? = some found) :
    i < calls.length ∧ calls[i]? = some found ∨ i = calls.length ∧ found = call := by
  obtain ⟨within, same⟩ := List.getElem?_eq_some_iff.mp there
  rcases Nat.lt_or_eq_of_le (Nat.le_of_lt_succ (by simpa using within)) with before | rfl
  · rw [List.getElem?_append_left before] at there
    exact .inl ⟨before, there⟩
  · exact .inr ⟨rfl, by simpa using same.symm⟩

theorem inserted_snoc : Inserted (calls ++ [call]) name i ↔ Inserted calls name i ∧ call ≠ .erase name ∨
    i = calls.length ∧ call.enters? = some name ∧ ¬ ∃ j, Inserted calls name j := by
  constructor
  · intro inserted
    obtain ⟨own, found, enters⟩ := inserted.enters
    rcases getElem?_snoc_cases found with ⟨before, here⟩ | ⟨rfl, rfl⟩
    · have stays : call ≠ .erase name := by
        rintro rfl
        exact inserted.kept calls.length before (by simp)
      refine .inl ⟨⟨⟨own, here, enters⟩, ?_, ?_⟩, stays⟩
      · intro j other earlier there alike
        obtain ⟨k, later, within, erased⟩ :=
          inserted.anew j other earlier (by rwa [List.getElem?_append_left (by omega)]) alike
        exact ⟨k, later, within, by rwa [List.getElem?_append_left (by omega)] at erased⟩
      · intro k later erased
        have within := (List.getElem?_eq_some_iff.mp erased).1
        exact inserted.kept k later (by rwa [List.getElem?_append_left within])
    · refine .inr ⟨rfl, enters, ?_⟩
      rintro ⟨j, earlier⟩
      obtain ⟨other, there, alike⟩ := earlier.enters
      obtain ⟨k, later, within, erased⟩ :=
        inserted.anew j other earlier.lt (by rwa [List.getElem?_append_left earlier.lt]) alike
      exact earlier.kept k later (by rwa [List.getElem?_append_left within] at erased)
  · rintro (⟨inserted, stays⟩ | ⟨rfl, enters, absent⟩)
    · have within := inserted.lt
      obtain ⟨own, found, enters⟩ := inserted.enters
      refine ⟨⟨own, by rwa [List.getElem?_append_left within], enters⟩, ?_, ?_⟩
      · intro j other earlier there alike
        rw [List.getElem?_append_left (by omega)] at there
        obtain ⟨k, later, before, erased⟩ := inserted.anew j other earlier there alike
        exact ⟨k, later, before, by rwa [List.getElem?_append_left (by omega)]⟩
      · intro k later erased
        rcases getElem?_snoc_cases erased with ⟨_, there⟩ | ⟨_, same⟩
        · exact inserted.kept k later there
        · exact stays same.symm
    · refine ⟨⟨call, by simp, enters⟩, ?_, ?_⟩
      · intro j other earlier there alike
        rw [List.getElem?_append_left earlier] at there
        by_contra never
        refine absent (exists_inserted there alike ?_)
        intro k later erased
        have within := (List.getElem?_eq_some_iff.mp erased).1
        exact never ⟨k, later, within, by rwa [List.getElem?_append_left within]⟩
      · intro k later erased
        have within := (List.getElem?_eq_some_iff.mp erased).1
        simp only [List.length_append, List.length_singleton] at within
        omega

theorem place_accepted {location : Location} : (∃ next, t.place name a location = .ok next) ↔
    ¬ t.Refuses (.place name a location) := by
  rw [← perform_refused]
  change _ ↔ ¬ ∃ s, t.place name a location = .error s
  cases t.place name a location <;> simp

theorem placed_snoc : Placed (calls ++ [call]) name k a ↔ Placed calls name k a ∧ call ≠ .clear ∨
    k = calls.length ∧ ∃ location, call = .place name a location ∧ ¬ (replay calls).Refuses call := by
  constructor
  · rintro ⟨⟨location, next, found, ran⟩, kept⟩
    rcases getElem?_snoc_cases found with ⟨before, here⟩ | ⟨rfl, rfl⟩
    · have stays : call ≠ .clear := by
        rintro rfl
        exact kept calls.length before (by simp)
      rw [List.take_append_of_le_length (Nat.le_of_lt before)] at ran
      refine .inl ⟨⟨⟨location, next, here, ran⟩, ?_⟩, stays⟩
      intro later beyond cleared
      have within := (List.getElem?_eq_some_iff.mp cleared).1
      exact kept later beyond (by rwa [List.getElem?_append_left within])
    · rw [List.take_left] at ran
      exact .inr ⟨rfl, location, rfl, place_accepted.mp ⟨next, ran⟩⟩
  · rintro (⟨⟨⟨location, next, found, ran⟩, kept⟩, stays⟩ | ⟨rfl, location, rfl, accepted⟩)
    · have within := (List.getElem?_eq_some_iff.mp found).1
      refine ⟨⟨location, next, by rwa [List.getElem?_append_left within], ?_⟩, ?_⟩
      · rwa [List.take_append_of_le_length (Nat.le_of_lt within)]
      · intro later beyond cleared
        rcases getElem?_snoc_cases cleared with ⟨_, there⟩ | ⟨_, same⟩
        · exact kept later beyond there
        · exact stays same.symm
    · obtain ⟨next, ran⟩ := place_accepted.mpr accepted
      refine ⟨⟨location, next, by simp, by rwa [List.take_left]⟩, ?_⟩
      intro later beyond cleared
      have within := (List.getElem?_eq_some_iff.mp cleared).1
      simp only [List.length_append, List.length_singleton] at within
      omega

-- What an entry shows of the calls if the one at this position put it in: place and kind are from that call, and the
-- address is from the only placement that went through since, or there was none.
structure Shows (calls : List Call) (s : Symbol) (i : Nat) : Prop where
  made : ∃ call made, calls[i]? = some call ∧ call.entry? = some made ∧ s.location = made.location ∧
    s.anonymous = made.anonymous
  placed : ∀ a, s.address = some a ↔ ∃ k, i ≤ k ∧ Placed calls s.name k a
  once : ∀ k k' a a', i ≤ k → i ≤ k' → Placed calls s.name k a → Placed calls s.name k' a' → k = k'

structure Recalls (calls : List Call) (t : SymbolTable) : Prop where
  distinct : t.Distinct
  present : ∀ name, name ∈ t.names ↔ ∃! i, Inserted calls name i
  ordered : t.names.Pairwise fun first second =>
    ∀ i j, Inserted calls first i → Inserted calls second j → i < j
  entries : ∀ s ∈ t.entries, ∀ i, Inserted calls s.name i → Shows calls s i

theorem Placed.lt (placed : Placed calls name k a) : k < calls.length := by
  obtain ⟨location, next, found, _⟩ := placed.call
  exact (List.getElem?_eq_some_iff.mp found).1

-- A second placement would not go through, because the first one shows.
theorem Shows.carried (shown : Shows calls s i) (distinct : (replay calls).Distinct) (member : s ∈ (replay calls).entries)
    (before : i < calls.length) {later : Symbol} (carries : Carries (replay calls) call s later) :
    Shows (calls ++ [call]) later i := by
  have single {k : Nat} {a b : Int} {location : Location} (since : i ≤ k) (placed : Placed calls s.name k a) :
      (replay calls).Refuses (.place s.name b location) :=
    ⟨a, (addressOf?_of_mem distinct member).trans ((shown.placed a).mpr ⟨k, since, placed⟩)⟩
  refine ⟨?_, ?_, ?_⟩
  · obtain ⟨own, made, found, makes, location, anonymous⟩ := shown.made
    exact ⟨own, made, by rwa [List.getElem?_append_left before], makes, carries.location.trans location,
      carries.anonymous.trans anonymous⟩
  · intro a
    rw [carries.address, carries.name, shown.placed]
    constructor
    · rintro (⟨⟨k, since, placed⟩, stays⟩ | last)
      · exact ⟨k, since, placed_snoc.mpr (.inl ⟨placed, stays⟩)⟩
      · exact ⟨calls.length, Nat.le_of_lt before, placed_snoc.mpr (.inr ⟨rfl, last⟩)⟩
    · rintro ⟨k, since, placed⟩
      rcases placed_snoc.mp placed with ⟨placed, stays⟩ | ⟨_, last⟩
      · exact .inl ⟨⟨k, since, placed⟩, stays⟩
      · exact .inr last
  · rw [carries.name]
    intro k k' a a' since since' placed placed'
    rcases placed_snoc.mp placed with ⟨old, _⟩ | ⟨rfl, location, rfl, accepted⟩
    · rcases placed_snoc.mp placed' with ⟨old', _⟩ | ⟨rfl, location, rfl, accepted⟩
      · exact shown.once k k' a a' since since' old old'
      · exact absurd (single since old) accepted
    · rcases placed_snoc.mp placed' with ⟨old', _⟩ | ⟨rfl, _⟩
      · exact absurd (single since' old') accepted
      · rfl

theorem Shows.new (makes : call.entry? = some s) (unknown : s.name ∉ (replay calls).names) :
    Shows (calls ++ [call]) s calls.length := by
  have last {k : Nat} {a : Int} (since : calls.length ≤ k) (placed : Placed (calls ++ [call]) s.name k a) :
      k = calls.length := by
    have within := placed.lt
    simp only [List.length_append, List.length_singleton] at within
    omega
  refine ⟨⟨call, s, by simp, makes, rfl, rfl⟩, ?_, ?_⟩
  · intro a
    constructor
    · intro address
      refine ⟨calls.length, Nat.le_refl _, placed_snoc.mpr (.inr ⟨rfl, ?_⟩)⟩
      cases call with
      | place name b location =>
        cases makes
        cases address
        refine ⟨location, rfl, ?_⟩
        intro refused
        obtain ⟨own, present, enters⟩ := refused.present
        cases enters
        exact unknown present
      | define name location anonymous =>
        cases makes
        cases address
      | erase | clear => cases makes
    · rintro ⟨k, since, placed⟩
      obtain rfl := last since placed
      rcases placed_snoc.mp placed with ⟨old, _⟩ | ⟨_, location, rfl, _⟩
      · exact absurd old.lt (Nat.lt_irrefl _)
      · rw [← Option.some.inj makes]
  · intro k k' a a' since since' placed placed'
    exact (last since placed).trans (last since' placed').symm

namespace Recalls

theorem empty : Recalls [] {} := by
  refine ⟨by simp [Distinct, names], ?_, by simp [names], by simp⟩
  intro name
  refine iff_of_false (by simp [names]) ?_
  rintro ⟨i, inserted, _⟩
  exact absurd inserted.lt (Nat.not_lt_zero i)

theorem known (recalls : Recalls calls t) (name : String) : name ∈ t.names ↔ ∃ i, Inserted calls name i :=
  (recalls.present name).trans existsUnique_inserted

-- A name that stays in the table was put in by the same call as before.
theorem inserted_old (recalls : Recalls calls t) (known : name ∈ t.names)
    (inserted : Inserted (calls ++ [call]) name i) : Inserted calls name i := by
  rcases inserted_snoc.mp inserted with ⟨before, _⟩ | ⟨_, _, absent⟩
  · exact before
  · exact absurd ((recalls.known name).mp known) absent

theorem inserted_new (recalls : Recalls calls t) (unknown : name ∉ t.names)
    (inserted : Inserted (calls ++ [call]) name i) : i = calls.length := by
  rcases inserted_snoc.mp inserted with ⟨before, _⟩ | ⟨last, _⟩
  · exact absurd ((recalls.known name).mpr ⟨i, before⟩) unknown
  · exact last

theorem ordered_after (recalls : Recalls calls t) (changes : Changes t call next) :
    next.names.Pairwise fun first second => ∀ i j, Inserted (calls ++ [call]) first i →
      Inserted (calls ++ [call]) second j → i < j := by
  have kept : t.names.Pairwise fun first second => ∀ i j, Inserted (calls ++ [call]) first i →
      Inserted (calls ++ [call]) second j → i < j := by
    refine recalls.ordered.imp_of_mem ?_
    intro first second known also before i j here there
    exact before i j (recalls.inserted_old known here) (recalls.inserted_old also there)
  cases changes with
  | refused => exact kept
  | inserted makes new =>
    rw [names_snoc, List.pairwise_append]
    refine ⟨kept, List.pairwise_singleton _ _, ?_⟩
    intro first known second last i j here there
    obtain rfl := List.mem_singleton.mp last
    have earlier := (recalls.inserted_old known here).lt
    have latest := recalls.inserted_new new there
    omega
  | placed => rwa [names_modifyAddress]
  | erased =>
    rw [names_erase]
    exact kept.filter _
  | cleared => rwa [names_clearAddresses]

theorem present_after (recalls : Recalls calls t) (changes : Changes t call next) (name : String) :
    name ∈ next.names ↔ ∃! i, Inserted (calls ++ [call]) name i := by
  rw [changes.mem_names, recalls.known, existsUnique_inserted]
  simp only [inserted_snoc]
  constructor
  · rintro (enters | ⟨⟨i, inserted⟩, stays⟩)
    · by_cases known : ∃ j, Inserted calls name j
      · obtain ⟨i, inserted⟩ := known
        exact ⟨i, .inl ⟨inserted, Call.ne_erase enters⟩⟩
      · exact ⟨_, .inr ⟨rfl, enters, known⟩⟩
    · exact ⟨i, .inl ⟨inserted, stays⟩⟩
  · rintro ⟨i, ⟨inserted, stays⟩ | ⟨_, enters, _⟩⟩
    · exact .inr ⟨⟨i, inserted⟩, stays⟩
    · exact .inl enters

theorem snoc (recalls : Recalls calls (replay calls)) (call : Call) :
    Recalls (calls ++ [call]) (replay (calls ++ [call])) := by
  have changes := after_changes (replay calls) call
  rw [replay_snoc]
  refine ⟨changes.distinct recalls.distinct, recalls.present_after changes, recalls.ordered_after changes, ?_⟩
  intro later member i inserted
  rcases changes.entries recalls.distinct member with ⟨makes, unknown⟩ | ⟨s, old, carries⟩
  · obtain rfl := recalls.inserted_new unknown inserted
    exact .new makes unknown
  · have known : s.name ∈ (replay calls).names := List.mem_map_of_mem old
    have before := recalls.inserted_old (carries.name ▸ known) inserted
    rw [carries.name] at before
    exact (recalls.entries s old i before).carried recalls.distinct old before.lt carries

end Recalls

theorem replay_recalls (calls : List Call) : Recalls calls (replay calls) := by
  induction calls using List.reverseRecOn with
  | nil => exact .empty
  | append_singleton calls call ih => exact ih.snoc call

-- A call that asks for what an earlier call has done already, and that still holds.
def Repeats (calls : List Call) : Call → Prop
  | .define name _ _ => ∃ i, Inserted calls name i
  | .place name _ _ => ∃ i k a, Inserted calls name i ∧ i ≤ k ∧ Placed calls name k a
  | _ => False

theorem refuses_iff_repeats (calls : List Call) (call : Call) : (replay calls).Refuses call ↔ Repeats calls call := by
  have recalls := replay_recalls calls
  cases call with
  | define name location anonymous => exact recalls.known name
  | place name address location =>
    constructor
    · rintro ⟨a, address⟩
      obtain ⟨s, found, placed⟩ := Option.bind_eq_some_iff.mp address
      have member := List.mem_of_find?_eq_some found
      obtain rfl := name_of_find? found
      obtain ⟨i, inserted⟩ := (recalls.known s.name).mp (find?_isSome.mp ⟨s, found⟩)
      obtain ⟨k, since, there⟩ := ((recalls.entries s member i inserted).placed a).mp placed
      exact ⟨i, k, a, inserted, since, there⟩
    · rintro ⟨i, k, a, inserted, since, placed⟩
      obtain ⟨s, found⟩ := find?_isSome.mpr ((recalls.known name).mpr ⟨i, inserted⟩)
      have member := List.mem_of_find?_eq_some found
      obtain rfl := name_of_find? found
      have address := ((recalls.entries s member i inserted).placed a).mpr ⟨k, since, placed⟩
      exact ⟨a, (addressOf?_of_mem recalls.distinct member).trans address⟩
  | erase | clear => rfl

-- Whatever calls were made on an empty table, refused or not.
theorem replay_recounts_calls (calls : List Call) : Recalls calls (replay calls) ∧ ∀ call : Call,
    ((∃ s, call.perform (replay calls) = .error s) ↔ Repeats calls call) ∧
    ((∃ s, call.perform (replay calls) = .error s) → replay (calls ++ [call]) = replay calls) := by
  refine ⟨replay_recalls calls, ?_⟩
  intro call
  refine ⟨perform_refused.trans (refuses_iff_repeats calls call), ?_⟩
  intro refused
  rw [replay_snoc]
  exact after_of_refused (perform_refused.mp refused)

-- The first name is taken out and comes back behind the second, which is placed again after its address was taken back.
theorem replay_recounts_calls_returning :
    let here (line : Int) : Location := ⟨"f", line, 1⟩
    let calls : List Call := [.define "a" (here 1) false, .place "b" 5 (here 2), .define "a" (here 3) true, .erase "a",
      .define "a" (here 5) true, .clear, .place "b" 7 (here 7), .place "b" 8 (here 8)]
    (replay calls).entries = [⟨"b", here 2, some 7, false⟩, ⟨"a", here 5, none, true⟩] ∧
      Inserted calls "a" 4 ∧ Inserted calls "b" 1 ∧ Placed calls "b" 6 7 ∧ Repeats calls (.place "b" 9 (here 9)) := by
  intro here calls
  have entries : (replay calls).entries = [⟨"b", here 2, some 7, false⟩, ⟨"a", here 5, none, true⟩] := by decide +kernel
  obtain ⟨recalls, refusals⟩ := replay_recounts_calls calls
  obtain ⟨i, first⟩ := (recalls.known "a").mp (by simp [names, entries])
  obtain ⟨j, second⟩ := (recalls.known "b").mp (by simp [names, entries])
  have shownFirst := recalls.entries ⟨"a", here 5, none, true⟩ (by simp [entries]) i first
  have shownSecond := recalls.entries ⟨"b", here 2, some 7, false⟩ (by simp [entries]) j second
  obtain rfl : i = 4 := by
    obtain ⟨call, made, found, makes, location, _⟩ := shownFirst.made
    have only : ∀ i < 8, (calls[i]?.bind Call.entry?).map (·.location) = some (here 5) → i = 4 := by decide
    exact only i first.lt (by rw [found, Option.bind_some, makes]; exact congrArg some location.symm)
  obtain rfl : j = 1 := by
    obtain ⟨call, made, found, makes, location, _⟩ := shownSecond.made
    have only : ∀ j < 8, (calls[j]?.bind Call.entry?).map (·.location) = some (here 2) → j = 1 := by decide
    exact only j second.lt (by rw [found, Option.bind_some, makes]; exact congrArg some location.symm)
  obtain ⟨k, _, placed⟩ := (shownSecond.placed 7).mp rfl
  obtain rfl : k = 6 := by
    obtain ⟨location, next, found, _⟩ := placed.call
    have only : ∀ k < 8, (calls[k]?.bind Call.entry?).map (·.address) = some (some 7) → k = 6 := by decide
    exact only k placed.lt (by rw [found]; rfl)
  exact ⟨entries, first, second, placed, (refusals _).1.mp ⟨⟨"b", here 2, some 7, false⟩, by decide +kernel⟩⟩

end RuneAsm.SymbolTable
