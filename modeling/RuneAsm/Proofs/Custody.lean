import Mathlib
import RuneAsm.Proofs.Reading

namespace RuneAsm

-- Custody of tokens. Among all tokens that are held anywhere, in the program under expansion, in the programs that wait
-- for it and in the bodies of macros, no serial number occurs twice, and each label of an inline subroutine belongs to
-- one closing brace and is declared as anonymous.

structure Custody (symbols : SymbolTable) (nextId : Nat) (held : List Token) : Prop where
  distinct : symbols.Distinct
  fresh : ∀ t ∈ held, t.id < nextId
  serials : (held.map (·.id)).Nodup
  labels : (closerLabels held).Nodup
  declared : ∀ label ∈ closerLabels held, symbols.Anonymous label
  veiled : symbols.Veiled

namespace Custody

variable {symbols later : SymbolTable} {nextId n : Nat} {held kept : List Token} {label : String}

theorem empty (distinct : symbols.Distinct) (veiled : symbols.Veiled) : Custody symbols nextId [] :=
  ⟨distinct, by simp, by simp, by simp, by simp, veiled⟩

theorem perm (custody : Custody symbols nextId held) (same : held.Perm kept) : Custody symbols nextId kept where
  distinct := custody.distinct
  fresh t member := custody.fresh t (same.symm.subset member)
  serials := ((same.map _).nodup_iff).mp custody.serials
  labels := ((same.filterMap _).nodup_iff).mp custody.labels
  declared label member := custody.declared label ((same.symm.filterMap _).subset member)
  veiled := custody.veiled

theorem sublist (custody : Custody symbols nextId held) (fewer : kept.Sublist held) :
    Custody symbols nextId kept where
  distinct := custody.distinct
  fresh t member := custody.fresh t (fewer.subset member)
  serials := custody.serials.sublist (fewer.map _)
  labels := custody.labels.sublist (fewer.filterMap _)
  declared label member := custody.declared label ((fewer.filterMap _).subset member)
  veiled := custody.veiled

-- Serial numbers and labels are all that counts of a token.
theorem congr (custody : Custody symbols nextId held) (serials : kept.map (·.id) = held.map (·.id))
    (labels : closerLabels kept = closerLabels held) : Custody symbols nextId kept where
  distinct := custody.distinct
  fresh t member := by
    have there : t.id ∈ held.map (·.id) := serials ▸ List.mem_map_of_mem member
    obtain ⟨other, otherMember, same⟩ := List.mem_map.mp there
    exact same ▸ custody.fresh other otherMember
  serials := serials ▸ custody.serials
  labels := labels ▸ custody.labels
  declared label member := custody.declared label (labels ▸ member)
  veiled := custody.veiled

theorem erase (custody : Custody symbols nextId held) (unused : label ∉ closerLabels held) :
    Custody (symbols.erase label) nextId held where
  distinct := SymbolTable.distinct_erase custody.distinct
  fresh := custody.fresh
  serials := custody.serials
  labels := custody.labels
  declared other member := by
    refine SymbolTable.anonymous_erase ?_ (custody.declared other member)
    rintro rfl
    exact unused member
  veiled s member := custody.veiled s (List.mem_of_mem_filter member)

-- New tokens bring new serial numbers, and labels that were not in the table.
theorem grow (custody : Custody symbols nextId held) (added : List Token) (distinct : later.Distinct)
    (keeps : ∀ label, symbols.Anonymous label → later.Anonymous label)
    (serials : added.map (·.id) = List.range' nextId n) (labels : (closerLabels added).Nodup)
    (new : ∀ label ∈ closerLabels added, label ∉ symbols.names ∧ later.Anonymous label) (veiled : later.Veiled) :
    Custody later (nextId + n) (held ++ added) where
  distinct := distinct
  fresh t member := by
    rcases List.mem_append.mp member with old | recent
    · exact Nat.lt_of_lt_of_le (custody.fresh t old) (Nat.le_add_right _ _)
    · have there : t.id ∈ List.range' nextId n := serials ▸ List.mem_map_of_mem recent
      exact (List.mem_range'_1.mp there).2
  serials := by
    rw [List.map_append, serials]
    refine List.Nodup.append custody.serials (List.nodup_range' 1) ?_
    intro id old recent
    obtain ⟨t, member, rfl⟩ := List.mem_map.mp old
    have low := custody.fresh t member
    have high := (List.mem_range'_1.mp recent).1
    omega
  labels := by
    rw [closerLabels_append]
    refine List.Nodup.append custody.labels labels ?_
    intro label old recent
    exact (new label recent).1 (SymbolTable.mem_names_of_anonymous (custody.declared label old))
  declared label member := by
    rw [closerLabels_append] at member
    rcases List.mem_append.mp member with old | recent
    · exact keeps label (custody.declared label old)
    · exact (new label recent).2
  veiled := veiled

end Custody

def MacroTable.bodies (macros : MacroTable) : List Token := macros.entries.flatMap (·.body)

namespace Expander

variable {e : Expander} {live kept : List Token}

-- The live tokens are those of all programs; the bodies of the macros are held besides them. A definition whose
-- body has not been taken out yet is none of those in the table, and of one whose body has been the table has the name.
structure Holds (e : Expander) (live : List Token) : Prop where
  custody : Custody e.symbols e.nextId (live ++ e.macros.bodies)
  stored : ∀ m ∈ e.macros.entries, Orderly m.body ∧ m.id < e.nextId
  unclaimed : ∀ t ∈ live ++ e.macros.bodies, ∀ name, t.kind = .macroDefinition name false →
    ∀ m ∈ e.macros.entries, m.id ≠ t.id
  claimed : ∀ t ∈ live ++ e.macros.bodies, ∀ name, t.kind = .macroDefinition name true → (e.macros.find? name).isSome

theorem Holds.perm (holds : e.Holds live) (same : live.Perm kept) : e.Holds kept where
  custody := holds.custody.perm (same.append_right _)
  stored := holds.stored
  unclaimed t member := holds.unclaimed t ((same.append_right _).symm.subset member)
  claimed t member := holds.claimed t ((same.append_right _).symm.subset member)

theorem Holds.sublist (holds : e.Holds live) (fewer : kept.Sublist live) : e.Holds kept where
  custody := holds.custody.sublist (fewer.append_right _)
  stored := holds.stored
  unclaimed t member := holds.unclaimed t ((fewer.append_right _).subset member)
  claimed t member := holds.claimed t ((fewer.append_right _).subset member)

-- Only labels, macros and serial numbers matter.
theorem Holds.aside {after : Expander} (holds : e.Holds live) (symbols : after.symbols = e.symbols)
    (macros : after.macros = e.macros) (serial : after.nextId = e.nextId) : after.Holds live := by
  obtain ⟨custody, stored, unclaimed, claimed⟩ := holds
  rw [← symbols, ← macros, ← serial] at custody
  rw [← macros, ← serial] at stored
  rw [← macros] at unclaimed claimed
  exact ⟨custody, stored, unclaimed, claimed⟩

theorem Holds.serials (holds : e.Holds live) : (live.map (·.id)).Nodup := by
  have all := holds.custody.serials
  rw [List.map_append] at all
  exact all.of_append_left

theorem Holds.labels (holds : e.Holds live) : (closerLabels live).Nodup :=
  holds.custody.labels.sublist ((List.sublist_append_left _ _).filterMap _)

theorem Holds.declared (holds : e.Holds live) : ∀ label ∈ closerLabels live, e.symbols.Anonymous label :=
  fun label member => holds.custody.declared label (by rw [closerLabels_append]; exact List.mem_append_left _ member)

-- The anonymous labels that a reading adds are new, because no name is in the table twice.
theorem coherent_labels {symbols : SymbolTable} {nextId : Nat} {r : Reader}
    (coherent : r.Coherent symbols nextId) :
    (closerLabels r.tokens.toList).Nodup ∧
      ∀ label ∈ closerLabels r.tokens.toList, label ∉ symbols.names ∧ r.symbols.Anonymous label := by
  obtain ⟨added, entries, labels⟩ := coherent.added
  have names : r.symbols.names = symbols.names ++ added.map (·.name) := by
    simp [SymbolTable.names, entries]
  have distinct := coherent.distinct
  unfold SymbolTable.Distinct at distinct
  rw [names] at distinct
  rw [← labels]
  refine ⟨distinct.of_append_right.sublist (List.filter_sublist.map _), ?_⟩
  intro label member
  obtain ⟨s, there, rfl⟩ := List.mem_map.mp member
  obtain ⟨inAdded, flag⟩ := List.mem_filter.mp there
  refine ⟨?_, SymbolTable.anonymous_of_mem coherent.distinct (by rw [entries]; simp [inAdded]) flag⟩
  intro old
  exact (List.nodup_append.mp distinct).2.2 _ old _ (List.mem_map_of_mem inAdded) rfl

-- They are labels of closing braces, and those of an orderly text hold a blank.
theorem coherent_veiled {symbols : SymbolTable} {nextId : Nat} {r : Reader} (coherent : r.Coherent symbols nextId)
    (regular : ∀ t ∈ r.tokens.toList, t.kind.Regular) (veiled : symbols.Veiled) : r.symbols.Veiled := by
  obtain ⟨added, entries, labels⟩ := coherent.added
  intro s member flag
  rw [entries] at member
  rcases List.mem_append.mp member with old | recent
  · exact veiled s old flag
  · have named : s.name ∈ closerLabels r.tokens.toList :=
      labels ▸ List.mem_map_of_mem (List.mem_filter.mpr ⟨recent, flag⟩)
    obtain ⟨t, there, kind⟩ := mem_closerLabels.mp named
    have spaced := regular t there
    rw [kind] at spaced
    exact spaced

-- The reader with which the reading of a text begins.
def reader (settings : Settings) (source : List Char) (file : String) (e : Expander) : Reader :=
  { file
    source
    checkComments := settings.commentWarnings
    scope := {}
    symbols := e.symbols
    journal := e.journal
    nextId := e.nextId }

def absorbReader (e : Expander) (r : Reader) : Expander :=
  { e with symbols := r.symbols, journal := r.journal, nextId := r.nextId }

theorem read_eq (settings : Settings) (source : List Char) (file : String) (e : Expander) :
    e.read settings source file = match (e.reader settings source file).run with
      | .ok r => .ok { e.absorbReader r with program := r.tokens.toList }
      | .error stop => .fail (e.absorbReader stop.state) stop.failure := rfl

theorem read_holds (settings : Settings) (source : List Char) (file : String) (holds : e.Holds live) :
    Run.Ends (fun after => after.Holds (live ++ after.program) ∧ Orderly after.program ∧ after.macros = e.macros)
      (Failure.Within Reader.faults) (e.read settings source file) := by
  have coherent : (e.reader settings source file).Coherent e.symbols e.nextId :=
    Reader.coherent_start (r := e.reader settings source file) holds.custody.distinct (by simp [reader, Reader.InScope]) rfl rfl
  have ends := Reader.run_coherent coherent
  rw [read_eq]
  cases ran : (e.reader settings source file).run with
  | error stop => exact ends.error ran
  | ok r =>
    obtain ⟨reached, orderly⟩ := ends.ok ran
    obtain ⟨count, number, serials⟩ := reached.serials
    obtain ⟨added, entries, _⟩ := reached.added
    obtain ⟨labels, new⟩ := coherent_labels reached
    have grown := holds.custody.grow r.tokens.toList reached.distinct (fun _ => SymbolTable.anonymous_of_append entries) serials
      labels new (coherent_veiled reached orderly.regular holds.custody.veiled)
    rw [← number] at grown
    have parts {t : Token} (member : t ∈ live ++ r.tokens.toList ++ e.macros.bodies) :
        t ∈ live ++ e.macros.bodies ∨ t ∈ r.tokens.toList := by
      simp only [List.mem_append] at member ⊢
      tauto
    refine ⟨⟨?_, ?_, ?_, ?_⟩, orderly, rfl⟩
    · refine grown.perm ?_
      rw [List.append_assoc, List.append_assoc]
      exact List.perm_append_comm.append_left _
    · intro m member
      obtain ⟨body, below⟩ := holds.stored m member
      exact ⟨body, by simp only [absorbReader, number]; omega⟩
    · intro t member name kind m entry
      rcases parts member with old | recent
      · exact holds.unclaimed t old name kind m entry
      · have serial : t.id ∈ List.range' e.nextId count := serials ▸ List.mem_map_of_mem recent
        have above := (List.mem_range'_1.mp serial).1
        have below := (holds.stored m entry).2
        omega
    · intro t member name kind
      rcases parts member with old | recent
      · exact holds.claimed t old name kind
      · have uncaptured := reached.uncaptured t recent
        rw [kind] at uncaptured
        cases uncaptured

end Expander

end RuneAsm
