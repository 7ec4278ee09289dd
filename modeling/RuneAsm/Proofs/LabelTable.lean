import Mathlib.Data.List.Nodup
import RuneAsm.SymbolTable

namespace RuneAsm.SymbolTable

-- Laws of the label table. What is found under a name after a declaration, a removal or a placement follows from what
-- was found before, and no operation enters a name twice.

variable {t next : SymbolTable} {name other : String} {location : Location} {anonymous : Bool} {address : Int}

def names (t : SymbolTable) : List String := t.entries.map (·.name)

def Distinct (t : SymbolTable) : Prop := t.names.Nodup

-- The entry is the one a look-up finds, so a later entry of the same name would not count.
def Anonymous (t : SymbolTable) (name : String) : Prop := ∃ s, t.find? name = some s ∧ s.anonymous = true

theorem find?_eq_none : t.find? name = none ↔ name ∉ t.names := by
  simp [find?, names]

theorem find?_isSome : (∃ s, t.find? name = some s) ↔ name ∈ t.names := by
  rw [← not_iff_not, ← find?_eq_none]
  cases t.find? name <;> simp

theorem name_of_find? {s : Symbol} (found : t.find? name = some s) : s.name = name := by
  simpa using List.find?_some found

theorem contains_iff : t.contains name = true ↔ name ∈ t.names := by
  simp [contains, names]

theorem length_names : t.names.length = t.size := by
  simp [names, size]

theorem find?_of_mem (distinct : t.Distinct) {s : Symbol} (member : s ∈ t.entries) : t.find? s.name = some s := by
  obtain ⟨found, there⟩ := find?_isSome.mpr (List.mem_map_of_mem member : s.name ∈ t.names)
  have same := name_of_find? there
  have unique := List.inj_on_of_nodup_map distinct (List.mem_of_find?_eq_some there) member same
  rw [there, unique]

theorem anonymous_of_mem (distinct : t.Distinct) {s : Symbol} (member : s ∈ t.entries)
    (flag : s.anonymous = true) : t.Anonymous s.name := ⟨s, find?_of_mem distinct member, flag⟩

theorem anonymous_of_append {added : List Symbol} (grown : next.entries = t.entries ++ added)
    (known : t.Anonymous name) : next.Anonymous name := by
  obtain ⟨s, found, flag⟩ := known
  refine ⟨s, ?_, flag⟩
  unfold find? at found ⊢
  rw [grown, List.find?_append, found]
  rfl

theorem define_ok_iff : t.define name location anonymous = .ok next ↔
    name ∉ t.names ∧ next = ⟨t.entries ++ [⟨name, location, none, anonymous⟩]⟩ := by
  unfold define
  rw [← find?_eq_none]
  cases t.find? name with
  | none => simp [eq_comm]
  | some earlier => simp

theorem define_of_not_mem (location : Location) (anonymous : Bool) (new : name ∉ t.names) : t.define name location anonymous =
    .ok ⟨t.entries ++ [⟨name, location, none, anonymous⟩]⟩ := define_ok_iff.mpr ⟨new, rfl⟩

theorem names_define (defined : t.define name location anonymous = .ok next) :
    next.names = t.names ++ [name] := by
  obtain ⟨_, rfl⟩ := define_ok_iff.mp defined
  simp [names]

theorem distinct_define (distinct : t.Distinct) (defined : t.define name location anonymous = .ok next) :
    next.Distinct := by
  have new := (define_ok_iff.mp defined).1
  unfold Distinct at distinct ⊢
  rw [names_define defined]
  exact List.Nodup.append distinct (List.nodup_singleton name) (by simpa using new)

theorem find?_define (defined : t.define name location anonymous = .ok next) :
    next.find? other = if other = name then some ⟨name, location, none, anonymous⟩ else t.find? other := by
  obtain ⟨new, rfl⟩ := define_ok_iff.mp defined
  simp only [find?, List.find?_append, List.find?_singleton]
  by_cases same : other = name
  · subst same
    have absent : t.entries.find? (fun s => decide (s.name = other)) = none := find?_eq_none.mpr new
    simp [absent]
  · have differs : ¬ name = other := fun equal => same equal.symm
    simp [same, differs]

theorem anonymous_define (defined : t.define name location anonymous = .ok next) (known : t.Anonymous other) :
    next.Anonymous other := by
  obtain ⟨s, found, flag⟩ := known
  refine ⟨s, ?_, flag⟩
  have differs : other ≠ name := by
    rintro rfl
    exact (define_ok_iff.mp defined).1 (find?_isSome.mp ⟨s, found⟩)
  rw [find?_define defined, if_neg differs, found]

theorem anonymous_new (defined : t.define name location true = .ok next) : next.Anonymous name :=
  ⟨⟨name, location, none, true⟩, by rw [find?_define defined, if_pos rfl], rfl⟩

theorem mem_names_of_anonymous (known : t.Anonymous name) : name ∈ t.names := by
  obtain ⟨s, found, _⟩ := known
  exact find?_isSome.mp ⟨s, found⟩

theorem find?_erase : (t.erase name).find? other = if other = name then none else t.find? other := by
  simp only [find?, erase, List.find?_filter]
  split
  · rename_i same
    subst same
    simp
  · rename_i differs
    congr 1
    funext s
    by_cases equal : s.name = other
    · simp [equal, differs]
    · simp [equal]

theorem distinct_erase (distinct : t.Distinct) : (t.erase name).Distinct :=
  List.Nodup.sublist (List.Sublist.map _ List.filter_sublist) distinct

theorem names_erase : (t.erase name).names = t.names.filter (· ≠ name) := by
  simp only [names, erase, List.filter_map]
  rfl

theorem anonymous_erase (differs : other ≠ name) (known : t.Anonymous other) :
    (t.erase name).Anonymous other := by
  obtain ⟨s, found, flag⟩ := known
  exact ⟨s, by rw [find?_erase, if_neg differs, found], flag⟩

theorem names_clearAddresses : t.clearAddresses.names = t.names := by
  simp [names, clearAddresses, Function.comp_def]

theorem names_modifyAddress : (t.modifyAddress name address).names = t.names := by
  simp only [names, modifyAddress, List.map_map]
  apply List.map_congr_left
  intro s _
  by_cases same : s.name = name <;> simp [same]

theorem addressOf?_clearAddresses : t.clearAddresses.addressOf? name = none := by
  simp only [addressOf?, find?, clearAddresses, List.find?_map]
  cases t.entries.find? ((fun s => decide (s.name = name)) ∘ fun s => { s with address := none }) <;> rfl

theorem find?_modifyAddress : (t.modifyAddress name address).find? other =
    (t.find? other).map (fun s => if s.name = name then { s with address := some address } else s) := by
  simp only [find?, modifyAddress, List.find?_map]
  congr 2
  funext s
  by_cases same : s.name = name <;> simp [same]

theorem addressOf?_modifyAddress : (t.modifyAddress name address).addressOf? other =
    if other = name ∧ name ∈ t.names then some address else t.addressOf? other := by
  simp only [addressOf?, find?_modifyAddress]
  cases found : t.find? other with
  | none =>
    have absent := find?_eq_none.mp found
    have excluded : ¬ (other = name ∧ name ∈ t.names) := fun both => absent (both.1 ▸ both.2)
    simp [excluded]
  | some s =>
    have present := find?_isSome.mp ⟨s, found⟩
    have named := name_of_find? found
    by_cases same : other = name
    · subst same
      simp [named, present]
    · have differs : ¬ s.name = name := fun equal => same (named.symm.trans equal)
      simp [same, differs]

theorem names_place {location : Location} (placed : t.place name address location = .ok next) :
    t.names ⊆ next.names := by
  unfold place at placed
  intro x member
  split at placed
  · cases placed
    simp only [names, List.map_append, List.mem_append]
    exact .inl member
  · split at placed
    · cases placed
    · cases placed
      rw [← find?_isSome] at member ⊢
      obtain ⟨s, found⟩ := member
      exact ⟨_, by rw [find?_modifyAddress, found]; rfl⟩

-- A placement fails exactly on a name that has its address.
theorem place_cases (t : SymbolTable) (name : String) (address : Int) (location : Location) :
    (∃ a, t.addressOf? name = some a) ∧ (∃ s, t.place name address location = .error s) ∨
    t.addressOf? name = none ∧ ∃ next, t.place name address location = .ok next ∧
      ∀ x, next.addressOf? x = if x = name then some address else t.addressOf? x := by
  unfold place
  cases found : t.find? name with
  | none =>
    refine .inr ⟨by simp [addressOf?, found], _, rfl, ?_⟩
    intro x
    simp only [addressOf?, find?, List.find?_append, List.find?_singleton]
    by_cases same : x = name
    · subst same
      have absent : t.entries.find? (fun s => decide (s.name = x)) = none := found
      simp [absent]
    · have differs : ¬ name = x := fun equal => same equal.symm
      simp [same, differs]
  | some s =>
    cases placed : s.address with
    | some a => exact .inl ⟨⟨a, by simp [addressOf?, found, placed]⟩, s, by simp [placed]⟩
    | none =>
      refine .inr ⟨by simp [addressOf?, found, placed], t.modifyAddress name address, by simp [placed], ?_⟩
      intro x
      have present : name ∈ t.names := find?_isSome.mp ⟨s, found⟩
      simp [addressOf?_modifyAddress, present]

end RuneAsm.SymbolTable
