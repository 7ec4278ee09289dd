import Mathlib
import RuneAsm.Proofs.Custody

namespace RuneAsm

open Run

-- Copies of macro bodies. Every closing brace of a body gets a label that the table does not have yet, the braces that
-- open are renamed with their partners, and the copy is balanced like the body. Copying never fails.

namespace Expander

variable {e : Expander} {c : Copying} {done body : List Token} {t : Token}

-- The tokens of the body that were looked at are those done.
structure Renamed (e : Expander) (done : List Token) (c : Copying) : Prop where
  changes : ∃ symbols journal copies, c.expander = { e with symbols, journal, copies }
  keys : c.renamed.reverse.map (·.1) = closerLabels done
  separate : (c.renamed.map (·.2)).Nodup
  new : ∀ entry ∈ c.renamed, (∃ n : Nat, entry.2 = s!"{entry.1}#{n}") ∧ entry.2 ∉ e.symbols.names ∧
    c.expander.symbols.Anonymous entry.2
  distinct : c.expander.symbols.Distinct
  keeps : ∀ label, e.symbols.Anonymous label → c.expander.symbols.Anonymous label
  grows : e.symbols.names ⊆ c.expander.symbols.names
  entries : ∃ added, c.expander.symbols.entries = e.symbols.entries ++ added ∧
    ∀ s ∈ added, ∃ label ∈ closerLabels done, ∃ n : Nat, s.name = s!"{label}#{n}"

theorem renamed_start (distinct : e.symbols.Distinct) : Renamed e [] ⟨e, []⟩ :=
  ⟨⟨e.symbols, e.journal, e.copies, rfl⟩, rfl, by simp, by simp, distinct, fun _ known => known,
    fun _ member => member, ⟨[], by simp, by simp⟩⟩

theorem renameCloser_renamed (before : Renamed e done c) (t : Token) :
    Ends (Renamed e (done ++ [t])) (fun _ => False) (renameCloser c t) := by
  unfold renameCloser
  split
  · rename_i label kind
    dsimp only
    generalize number : freeNumber c.expander.symbols label c.expander.symbols.size (c.expander.copies + 1) = n
    have free : s!"{label}#{n}" ∉ c.expander.symbols.names := number ▸ freeNumber_new _ label _
    have defined := SymbolTable.define_of_not_mem t.location true free
    rw [defined]
    obtain ⟨symbols, journal, copies, changed⟩ := before.changes
    refine ⟨⟨_, _, n, by rw [changed]; rfl⟩, ?_, ?_, ?_, ?_, ?_, ?_, ?_⟩
    · simp [before.keys, closerLabels_cons, kind, TokenKind.closerLabel?]
    · refine List.nodup_cons.mpr ⟨?_, before.separate⟩
      intro taken
      obtain ⟨entry, member, same⟩ := List.mem_map.mp taken
      have known := (before.new entry member).2.2
      rw [same] at known
      exact free (SymbolTable.mem_names_of_anonymous known)
    · intro entry member
      rcases List.mem_cons.mp member with rfl | earlier
      · exact ⟨⟨n, rfl⟩, fun old => free (before.grows old), SymbolTable.anonymous_new defined⟩
      · obtain ⟨copy, fresh, known⟩ := before.new entry earlier
        exact ⟨copy, fresh, SymbolTable.anonymous_define defined known⟩
    · exact SymbolTable.distinct_define before.distinct defined
    · intro other known
      exact SymbolTable.anonymous_define defined (before.keeps other known)
    · intro name member
      have grown := SymbolTable.names_define defined
      exact grown ▸ List.mem_append_left _ (before.grows member)
    · obtain ⟨added, entries, copies⟩ := before.entries
      refine ⟨added ++ [⟨s!"{label}#{n}", t.location, none, true⟩], by simp [note, entries], ?_⟩
      intro s member
      rw [closerLabels_append, closerLabels_cons, kind]
      rcases List.mem_append.mp member with old | recent
      · obtain ⟨copied, there, number⟩ := copies s old
        exact ⟨copied, List.mem_append_left _ there, number⟩
      · rw [List.mem_singleton.mp recent]
        exact ⟨label, by simp [TokenKind.closerLabel?], n, rfl⟩
  · rename_i noBrace
    have none : t.kind.closerLabel? = none := by
      cases kind : t.kind <;> first | rfl | exact absurd kind (noBrace _)
    refine ⟨before.changes, ?_, before.separate, before.new, before.distinct, before.keeps, before.grows, ?_⟩
    · simp [before.keys, closerLabels_cons, none]
    · simpa [closerLabels_cons, none] using before.entries

theorem renameClosers_ok (distinct : e.symbols.Distinct) (body : List Token) :
    ∃ c, Run.each renameCloser ⟨e, []⟩ body = .ok c ∧ Renamed e body c := by
  have ends : Ends _ (fun _ => False) (Run.each renameCloser ⟨e, []⟩ body) :=
    ends_each (fun rest c => ∃ done, body = done ++ rest ∧ Renamed e done c) (fun c t rest before => by
      obtain ⟨done, split, renamed⟩ := before
      exact (renameCloser_renamed renamed t).mono
        (fun after renamed => ⟨done ++ [t], by rw [split]; simp, renamed⟩) (fun _ failed => failed))
    ⟨[], rfl, renamed_start distinct⟩
  cases ran : Run.each renameCloser ⟨e, []⟩ body with
  | ok c =>
    obtain ⟨done, split, renamed⟩ := ends.ok ran
    rw [List.append_nil] at split
    exact ⟨c, rfl, split ▸ renamed⟩
  | error stop => exact (ends.error ran).elim

theorem lookup_of_mem {entries : List (String × String)} (distinct : (entries.map (·.1)).Nodup)
    {key value : String} (member : (key, value) ∈ entries) : entries.lookup key = some value := by
  induction entries with
  | nil => cases member
  | cons entry rest ih =>
    obtain ⟨first, second⟩ := entry
    obtain ⟨absent, distinct⟩ := List.nodup_cons.mp distinct
    rcases List.mem_cons.mp member with same | later
    · cases same
      simp
    · have differs : key ≠ first := by
        intro same
        exact absent (List.mem_map.mpr ⟨_, later, same⟩)
      simp [List.lookup_cons, beq_false_of_ne differs, ih distinct later]

theorem Copying.label_of_mem (distinct : (c.renamed.map (·.1)).Nodup) {key value : String}
    (member : (key, value) ∈ c.renamed) : c.label key = value := by
  simp [Copying.label, lookup_of_mem distinct member]

theorem Copying.label_of_not_mem {key : String} (absent : key ∉ c.renamed.map (·.1)) : c.label key = key := by
  have none : c.renamed.lookup key = none := by
    rw [List.lookup_eq_none_iff]
    intro entry member
    refine bne_iff_ne.mpr ?_
    rintro rfl
    exact absent (List.mem_map_of_mem member)
  simp [Copying.label, none]

namespace Renamed

theorem key_mem (renamed : Renamed e body c) {key : String} :
    key ∈ c.renamed.map (·.1) ↔ key ∈ closerLabels body := by
  rw [← renamed.keys]
  simp

theorem keys_distinct (renamed : Renamed e body c) (distinct : (closerLabels body).Nodup) :
    (c.renamed.map (·.1)).Nodup := by
  rw [← renamed.keys, List.map_reverse] at distinct
  exact List.nodup_reverse.mp distinct

-- A label is renamed to a copy of itself if a closing brace of the body has it, and stays otherwise.
theorem label_cases (renamed : Renamed e body c) (distinct : (closerLabels body).Nodup) (label : String) :
    label ∈ closerLabels body ∧ (∃ n : Nat, c.label label = s!"{label}#{n}") ∨
      label ∉ closerLabels body ∧ c.label label = label := by
  by_cases member : label ∈ closerLabels body
  · obtain ⟨⟨key, value⟩, entry, rfl⟩ := List.mem_map.mp (renamed.key_mem.mpr member)
    obtain ⟨n, copy⟩ := (renamed.new _ entry).1
    exact .inl ⟨member, n, (Copying.label_of_mem (renamed.keys_distinct distinct) entry).trans copy⟩
  · exact .inr ⟨member, Copying.label_of_not_mem fun key => member (renamed.key_mem.mp key)⟩

theorem label_plain (renamed : Renamed e body c) (orderly : Orderly body)
    (distinct : (closerLabels body).Nodup) {label : String} (plain : Plain label) : c.label label = label := by
  rcases renamed.label_cases distinct label with ⟨member, _⟩ | ⟨_, same⟩
  · obtain ⟨t, there, kind⟩ := mem_closerLabels.mp member
    have regular := orderly.regular t there
    rw [kind] at regular
    exact absurd plain regular
  · exact same

theorem label_not_plain (renamed : Renamed e body c) (distinct : (closerLabels body).Nodup) {label : String}
    (spaced : ¬ Plain label) : ¬ Plain (c.label label) := by
  rcases renamed.label_cases distinct label with ⟨_, n, copy⟩ | ⟨_, same⟩
  · rw [copy]
    exact copy_not_plain spaced
  · rwa [same]

-- The new labels of the body are the renamed ones, in the order of its braces.
theorem map_label (renamed : Renamed e body c) (distinct : (closerLabels body).Nodup) :
    (closerLabels body).map c.label = c.renamed.reverse.map (·.2) := by
  rw [← renamed.keys, List.map_map]
  refine List.map_congr_left ?_
  rintro ⟨key, value⟩ member
  exact Copying.label_of_mem (renamed.keys_distinct distinct) (List.mem_reverse.mp member)

end Renamed

-- The copy of one token, found by its serial number.
def copyToken (base : Nat) (body : List Token) (f : String → String) (t : Token) : Token :=
  { t with
    id := base + body.findIdx (·.id = t.id)
    partner := t.partner.bind fun partner => (body.findIdx? (·.id = partner)).map (base + ·)
    kind := t.kind.mapLabel f }

def copyBody (base : Nat) (body : List Token) (f : String → String) : List Token :=
  (freshCopy base body).map fun t => { t with kind := t.kind.mapLabel f }

variable {base : Nat} {f : String → String}

theorem findIdx_id (serials : (body.map (·.id)).Nodup) {i : Nat} (within : i < body.length) :
    body.findIdx (·.id = body[i].id) = i := by
  rw [List.findIdx_eq within]
  refine ⟨by simp, ?_⟩
  intro j earlier
  have differs := List.pairwise_iff_getElem.mp serials j i (by simp; omega) (by simpa using within) earlier
  simpa using differs

theorem copyBody_eq_map (serials : (body.map (·.id)).Nodup) : copyBody base body f = body.map (copyToken base body f) := by
  refine List.ext_getElem (by simp [copyBody, freshCopy]) ?_
  intro i left right
  have within : i < body.length := by simpa using right
  simp [copyBody, freshCopy, copyToken, findIdx_id serials within]

theorem copyBody_ids : (copyBody base body f).map (·.id) = List.range' base body.length := by
  refine List.ext_getElem (by simp [copyBody, freshCopy]) ?_
  intro i left right
  simp [copyBody, freshCopy]

theorem copyBody_closerLabels (base : Nat) (f : String → String) (serials : (body.map (·.id)).Nodup) :
    closerLabels (copyBody base body f) = (closerLabels body).map f := by
  rw [copyBody_eq_map serials, closerLabels, List.filterMap_map, closerLabels, List.map_filterMap]
  refine List.filterMap_congr ?_
  intro t _
  exact mapLabel_closerLabel?

theorem copyToken_pairs {opener closer : Token} (openerIn : opener ∈ body) (closerIn : closer ∈ body)
    (pairs : Pairs opener closer) : Pairs (copyToken base body f opener) (copyToken base body f closer) := by
  have found {t : Token} (member : t ∈ body) : body.findIdx? (·.id = t.id) = some (body.findIdx (·.id = t.id)) :=
    List.findIdx?_eq_some_of_exists ⟨t, member, by simp⟩
  obtain ⟨c, opens, closes⟩ := pairs.bracket
  refine ⟨⟨c, ?_, ?_⟩, ?_, ?_, ?_⟩
  · exact mapLabel_closer?.trans opens
  · exact mapLabel_closes?.trans closes
  · simp [copyToken, pairs.forth, found closerIn]
  · simp [copyToken, pairs.back, found openerIn]
  · simp [copyToken, mapLabel_label?, pairs.label]

theorem mem_copyBody {u : Token} (member : u ∈ copyBody base body f) :
    ∃ t ∈ body, ∃ id partner, u = { t with id, partner, kind := t.kind.mapLabel f } := by
  unfold copyBody freshCopy at member
  obtain ⟨copy, there, rfl⟩ := List.mem_map.mp member
  obtain ⟨i, within, rfl⟩ := List.mem_mapIdx.mp there
  exact ⟨body[i], List.getElem_mem within, _, _, rfl⟩

theorem copyBody_orderly (serials : (body.map (·.id)).Nodup) (orderly : Orderly body)
    (plain : ∀ label, Plain label → Plain (f label)) (spaced : ∀ label, ¬ Plain label → ¬ Plain (f label)) :
    Orderly (copyBody base body f) := by
  rw [copyBody_eq_map serials]
  refine ⟨?_, ?_⟩
  · refine Nesting.map (· ∈ body) (fun o c => copyToken_pairs) (fun t => mapLabel_closer?)
      (fun t => mapLabel_closes?) ?_ orderly.balanced (by simp) (fun t member => member)
    intro t alone
    simp [copyToken, alone]
  · intro t member
    obtain ⟨original, there, rfl⟩ := List.mem_map.mp member
    exact mapLabel_regular plain spaced (orderly.regular original there)

variable {m : Macro} {p : Pass} {live : List Token}

theorem Holds.body_custody (holds : e.Holds live) (known : m ∈ e.macros.entries) :
    Custody e.symbols e.nextId m.body := by
  refine holds.custody.sublist (List.Sublist.trans ?_ (List.sublist_append_right _ _))
  exact List.sublist_flatten_of_mem (List.mem_map_of_mem known)

-- The state after a copy was made, apart from its place in the output.
def Copying.finished (c : Copying) (m : Macro) (t : Token) : Expander :=
  { c.expander with
    nextId := c.expander.nextId + m.body.length
    stats.expansions := c.expander.stats.expansions + 1 }.note (.expanded m.name t.location)

theorem expandMacro_eq (distinct : p.expander.symbols.Distinct) (m : Macro) (t : Token) :
    ∃ c, Run.each renameCloser ⟨p.expander, []⟩ m.body = .ok c ∧ Renamed p.expander m.body c ∧
      expandMacro m t p =
        .ok (p.replaceBy (c.finished m t) (copyBody c.expander.nextId m.body c.label)) := by
  obtain ⟨c, ran, renamed⟩ := renameClosers_ok distinct m.body
  refine ⟨c, ran, renamed, ?_⟩
  unfold expandMacro
  rw [ran]
  rfl

theorem Renamed.nextId_eq (renamed : Renamed e body c) : c.expander.nextId = e.nextId := by
  obtain ⟨symbols, journal, copies, changed⟩ := renamed.changes
  rw [changed]

theorem Renamed.macros_eq (renamed : Renamed e body c) : c.expander.macros = e.macros := by
  obtain ⟨symbols, journal, copies, changed⟩ := renamed.changes
  rw [changed]

theorem Renamed.veiled (renamed : Renamed e body c) (orderly : Orderly body) (veiled : e.symbols.Veiled) :
    c.expander.symbols.Veiled := by
  obtain ⟨added, entries, copies⟩ := renamed.entries
  intro s member flag
  rw [entries] at member
  rcases List.mem_append.mp member with old | recent
  · exact veiled s old flag
  · obtain ⟨label, closes, n, name⟩ := copies s recent
    obtain ⟨t, there, kind⟩ := mem_closerLabels.mp closes
    have spaced := orderly.regular t there
    rw [kind] at spaced
    rw [name]
    exact copy_not_plain spaced

theorem holds_copy (holds : e.Holds live) (known : m ∈ e.macros.entries) (renamed : Renamed e m.body c)
    (t : Token) : (c.finished m t).Holds (live ++ copyBody c.expander.nextId m.body c.label) ∧
      Orderly (copyBody c.expander.nextId m.body c.label) := by
  have inner := holds.body_custody known
  have orderly := (holds.stored m known).1
  have labels := copyBody_closerLabels c.expander.nextId c.label inner.serials
  have renamedLabels := labels.trans (renamed.map_label inner.labels)
  have grown := holds.custody.grow (copyBody c.expander.nextId m.body c.label) renamed.distinct renamed.keeps
    (by rw [copyBody_ids, renamed.nextId_eq])
    (by rw [renamedLabels, List.map_reverse]; exact List.nodup_reverse.mpr renamed.separate)
    (by
      intro label member
      rw [renamedLabels] at member
      obtain ⟨entry, there, rfl⟩ := List.mem_map.mp member
      exact (renamed.new entry (List.mem_reverse.mp there)).2)
    (renamed.veiled orderly holds.custody.veiled)
  refine ⟨⟨?_, ?_, ?_, ?_⟩, ?_⟩
  · change Custody c.expander.symbols (c.expander.nextId + m.body.length) (_ ++ c.expander.macros.bodies)
    rw [renamed.macros_eq, renamed.nextId_eq] at *
    refine grown.perm ?_
    rw [List.append_assoc, List.append_assoc]
    exact List.perm_append_comm.append_left _
  · intro other member
    have there : other ∈ e.macros.entries := renamed.macros_eq ▸ member
    obtain ⟨bodyOrderly, below⟩ := holds.stored other there
    refine ⟨bodyOrderly, ?_⟩
    change other.id < c.expander.nextId + m.body.length
    rw [renamed.nextId_eq]
    omega
  · intro u member name kind other otherMember
    have there : other ∈ e.macros.entries := renamed.macros_eq ▸ otherMember
    change u ∈ _ ++ c.expander.macros.bodies at member
    rw [renamed.macros_eq] at member
    rcases List.mem_append.mp member with front | stored
    · rcases List.mem_append.mp front with old | copied
      · exact holds.unclaimed u (List.mem_append_left _ old) name kind other there
      · have serial : u.id ∈ List.range' c.expander.nextId m.body.length :=
          copyBody_ids ▸ List.mem_map_of_mem copied
        have above := (List.mem_range'_1.mp serial).1
        have below := (holds.stored other there).2
        rw [renamed.nextId_eq] at above
        omega
    · exact holds.unclaimed u (List.mem_append_right _ stored) name kind other there
  · intro u member name kind
    change u ∈ _ ++ c.expander.macros.bodies at member
    change (c.expander.macros.find? name).isSome
    rw [renamed.macros_eq] at member ⊢
    rcases List.mem_append.mp member with front | stored
    · rcases List.mem_append.mp front with old | copied
      · exact holds.claimed u (List.mem_append_left _ old) name kind
      · obtain ⟨original, there, id, partner, rfl⟩ := mem_copyBody copied
        refine holds.claimed original (List.mem_append_right _ ?_) name (mapLabel_macroDefinition.mp kind)
        exact List.mem_flatMap.mpr ⟨m, known, there⟩
    · exact holds.claimed u (List.mem_append_right _ stored) name kind
  · refine copyBody_orderly inner.serials orderly ?_ (fun label => renamed.label_not_plain inner.labels)
    intro label plain
    rwa [renamed.label_plain orderly inner.labels plain]

end Expander

end RuneAsm
