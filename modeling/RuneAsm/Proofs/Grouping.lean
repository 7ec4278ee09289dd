import Mathlib
import RuneAsm.Listing
import RuneAsm.Proofs.Emitting
import RuneAsm.Proofs.Positions
import RuneAsm.Proofs.Respacing.Layout
import RuneAsm.Proofs.Splicing.Layout

namespace RuneAsm

open Run

-- The records of each token. Laying out a program gives the records token by token, those of one token following each
-- other from its output position on. So the groups of a listing are the tokens that made records, in the order of the
-- program, and the bytes of a group stand in the image where its address says.

namespace Record

variable {r : Record} {data : List UInt8}

-- The bytes of a record; none as long as an operand has no value.
def held (r : Record) : List UInt8 := r.data.toOption.getD []

theorem held_eq (known : r.data = .ok data) : r.held = data := by
  unfold held
  rw [known]
  rfl

end Record

-- The records that a token made.
def recordsOf (records : List Record) (t : Token) : List Record := records.filter (·.token? = some t)

-- Records of tokens one after another, those of each token from the output position to which the tokens before it lead.
-- Spacing makes none.
inductive Blocks : Cursor → List Token → List Record → Prop
  | nil {c : Cursor} : Blocks c [] []
  | cons {c : Cursor} {t : Token} {rest : List Token} {new records : List Record} :
      Record.Abut t c.output new → (t.kind.isSpacing = true → new = []) → Blocks (c.pass t) rest records →
        Blocks c (t :: rest) (new ++ records)

theorem Record.Abut.owner {t : Token} {position : Int} {new : List Record} (abut : Abut t position new) :
    ∀ r ∈ new, r.token? = some t := by
  induction new generalizing position with
  | nil => simp
  | cons first rest ih =>
    intro r member
    rcases List.mem_cons.mp member with rfl | later
    · exact abut.1
    · exact ih abut.2.2 r later

namespace Layout

variable {l start m last : Layout} {tokens : List Token} {symbols : SymbolTable}

theorem each_blocks (reached : Run.each step start tokens = .ok m) :
    ∃ records, m.records.toList = start.records.toList ++ records ∧ Blocks start.cursor tokens records := by
  induction tokens generalizing start with
  | nil =>
    cases reached
    exact ⟨[], by simp, .nil⟩
  | cons t rest ih =>
    obtain ⟨next, first, others⟩ := andThen_eq_ok reached
    obtain ⟨cursor, new, ⟨grown, abut⟩, _⟩ := (step_passes start t).ok first
    obtain ⟨records, made, blocks⟩ := ih others
    rw [cursor] at blocks
    refine ⟨new ++ records, by rw [made, grown, List.append_assoc], .cons abut ?_ blocks⟩
    intro spacing
    rw [step_spacing start t spacing] at first
    cases first
    exact List.self_eq_append_right.mp grown

-- An operand that is filled in stays where it is.
theorem Filled.shape {r filled : Record} (pair : Filled symbols r filled) :
    filled.token? = r.token? ∧ filled.position = r.position ∧ filled.size = r.size := by
  cases pair <;> exact ⟨rfl, rfl, rfl⟩

theorem abut_filled {t : Token} {position : Int} {new filled : List Record} (abut : Record.Abut t position new)
    (pairs : List.Forall₂ (Filled symbols) new filled) : Record.Abut t position filled := by
  induction pairs generalizing position with
  | nil => trivial
  | cons pair _ ih =>
    obtain ⟨token, place, size⟩ := pair.shape
    obtain ⟨owner, here, later⟩ := abut
    exact ⟨token.trans owner, place.trans here, by rw [size]; exact ih later⟩

theorem blocks_filled {c : Cursor} {records filled : List Record} (blocks : Blocks c tokens records)
    (pairs : List.Forall₂ (Filled symbols) records filled) : Blocks c tokens filled := by
  induction blocks generalizing filled with
  | nil =>
    cases pairs
    exact .nil
  | @cons c t rest new records abut idle _ ih =>
    have turned : List.Forall₂ (flip (Filled symbols)) filled (new ++ records) := List.Forall₂.flip pairs
    have early := List.forall₂_take_append filled new records turned
    have late := List.forall₂_drop_append filled new records turned
    rw [← List.take_append_drop new.length filled]
    refine .cons (abut_filled abut early.flip) ?_ (ih late.flip)
    intro spacing
    rw [idle spacing, List.length_nil, List.take_zero]

theorem generate_blocks (prepared : Prepared l.symbols tokens) (ran : l.generate tokens = .ok last) :
    Blocks ⟨l.loadBase, l.loadBase⟩ tokens last.records.toList := by
  obtain ⟨next, walked, laid, _⟩ := generate_laid prepared ran
  have resolved : next.resolve = .ok last := by
    rw [generate, walked] at ran
    exact ran
  obtain ⟨_, filled, made, pairs⟩ := (resolveRecords_ends { next with records := #[] } laid.waits).ok resolved
  obtain ⟨records, grown, blocks⟩ := each_blocks walked
  have start : l.restart.cursor = ⟨l.loadBase, l.loadBase⟩ := by simp [cursor, target, restart]
  rw [start] at blocks
  have all : next.records.toList = records := grown
  rw [all] at pairs
  have same : last.records.toList = filled := made
  rw [same]
  exact blocks_filled blocks pairs

end Layout

theorem Blocks.owner {c : Cursor} {tokens : List Token} {records : List Record} (blocks : Blocks c tokens records) :
    ∀ r ∈ records, ∃ t ∈ tokens, r.token? = some t := by
  induction blocks with
  | nil => simp
  | cons abut _ _ ih =>
    intro r member
    rcases List.mem_append.mp member with new | later
    · exact ⟨_, List.mem_cons_self, abut.owner r new⟩
    · obtain ⟨t, there, owner⟩ := ih r later
      exact ⟨t, List.mem_cons_of_mem _ there, owner⟩

theorem Blocks.solid {c : Cursor} {tokens : List Token} {records : List Record} {t : Token}
    (blocks : Blocks c tokens records) (made : recordsOf records t ≠ []) : t.kind.isSpacing = false := by
  obtain ⟨r, member⟩ := List.exists_mem_of_ne_nil _ made
  obtain ⟨inside, owner⟩ : r ∈ records ∧ r.token? = some t := by simpa [recordsOf] using member
  clear made member
  induction blocks with
  | nil => simp at inside
  | cons abut idle _ ih =>
    rcases List.mem_append.mp inside with new | later
    · cases (abut.owner r new).symm.trans owner
      apply Bool.eq_false_iff.mpr
      intro spacing
      rw [idle spacing] at new
      simp at new
    · exact ih later

section

variable {c : Cursor} {t u : Token} {rest : List Token} {new records : List Record}

theorem recordsOf_append (early late : List Record) (t : Token) :
    recordsOf (early ++ late) t = recordsOf early t ++ recordsOf late t := List.filter_append ..

theorem recordsOf_own (owner : ∀ r ∈ new, r.token? = some t) : recordsOf new t = new :=
  List.filter_eq_self.mpr fun r member => by simp [owner r member]

theorem recordsOf_other (owner : ∀ r ∈ new, r.token? ≠ some t) : recordsOf new t = [] :=
  List.filter_eq_nil_iff.mpr fun r member => by simp [owner r member]

-- No token owns the records of another one.
theorem Blocks.split (abut : Record.Abut t c.output new) (blocks : Blocks (c.pass t) rest records)
    (serials : ((t :: rest).map (·.id)).Nodup) :
    recordsOf (new ++ records) t = new ∧ ∀ u ∈ rest, recordsOf (new ++ records) u = recordsOf records u := by
  have apart : ∀ u ∈ rest, u ≠ t := by
    rintro u member rfl
    exact (List.nodup_cons.mp serials).1 (List.mem_map_of_mem member)
  refine ⟨?_, ?_⟩
  · have none : recordsOf records t = [] := by
      apply recordsOf_other
      intro r member owner
      obtain ⟨u, there, other⟩ := blocks.owner r member
      exact apart u there (Option.some.inj (other.symm.trans owner))
    rw [recordsOf_append, recordsOf_own abut.owner, none, List.append_nil]
  · intro u member
    have none : recordsOf new u = [] := by
      apply recordsOf_other
      intro r inNew owner
      exact apart u member (Option.some.inj (owner.symm.trans (abut.owner r inNew)))
    rw [recordsOf_append, none, List.nil_append]

end

namespace Listing

variable {c : Cursor} {t : Token} {tokens : List Token} {groups : List Group} {position : Int} {data : List UInt8}
variable {new rest records : List Record}

theorem groupsOnto_cons {r : Record} (known : r.data = .ok data) :
    groupsOnto groups (r :: rest) = groupsOnto (join groups r data) rest := by
  simp only [groupsOnto, known]

theorem join_same {r : Record} (owner : r.token? = some t) (bytes : List UInt8) :
    join (⟨position, data, some t⟩ :: groups) r bytes = ⟨position, data ++ bytes, some t⟩ :: groups := by
  simp [join, owner]

theorem join_other {r : Record} (owner : r.token? = some t) (apart : ∀ g ∈ groups.head?, g.token.map (·.id) ≠ some t.id)
    (bytes : List UInt8) : join groups r bytes = ⟨r.position, bytes, some t⟩ :: groups := by
  cases groups with
  | nil => simp [join, owner]
  | cons g others =>
    have differs := apart g rfl
    simp only [join, owner]
    rw [if_neg differs]

-- The records of one token go into its group, one after the other.
theorem groupsOnto_same (owner : ∀ r ∈ new, r.token? = some t) (known : ∀ r ∈ new, ∃ bytes, r.data = .ok bytes) :
    groupsOnto (⟨position, data, some t⟩ :: groups) (new ++ rest) =
      groupsOnto (⟨position, data ++ new.flatMap Record.held, some t⟩ :: groups) rest := by
  induction new generalizing data with
  | nil => simp
  | cons r more ih =>
    obtain ⟨bytes, here⟩ := known r List.mem_cons_self
    rw [List.cons_append, groupsOnto_cons here, join_same (owner r List.mem_cons_self),
      ih (fun x member => owner x (List.mem_cons_of_mem _ member)) (fun x member => known x (List.mem_cons_of_mem _ member)),
      List.flatMap_cons, Record.held_eq here, List.append_assoc]

theorem groupsOnto_block (abut : Record.Abut t position new) (nonempty : new ≠ [])
    (known : ∀ r ∈ new, ∃ bytes, r.data = .ok bytes) (apart : ∀ g ∈ groups.head?, g.token.map (·.id) ≠ some t.id) :
    groupsOnto groups (new ++ rest) = groupsOnto (⟨position, new.flatMap Record.held, some t⟩ :: groups) rest := by
  obtain ⟨r, more, rfl⟩ := List.exists_cons_of_ne_nil nonempty
  obtain ⟨bytes, here⟩ := known r List.mem_cons_self
  have owner := abut.owner
  rw [List.cons_append, groupsOnto_cons here, join_other (owner r List.mem_cons_self) apart,
    groupsOnto_same (fun x member => owner x (List.mem_cons_of_mem _ member))
      (fun x member => known x (List.mem_cons_of_mem _ member)), List.flatMap_cons, Record.held_eq here, abut.2.1]

-- The group of a token: its records, from the output position of the token on.
structure Shows (c : Cursor) (tokens : List Token) (records : List Record) (t : Token) (g : Group) : Prop where
  token : g.token = some t
  data : g.data = (recordsOf records t).flatMap Record.held
  abut : Record.Abut t g.position (recordsOf records t)
  position : ∃ front back, tokens = front ++ t :: back ∧ g.position = (c.after front).output

theorem groupsOnto_blocks (blocks : Blocks c tokens records) (serials : (tokens.map (·.id)).Nodup)
    (known : ∀ r ∈ records, ∃ bytes, r.data = .ok bytes)
    (apart : ∀ g ∈ groups.head?, ∀ t ∈ tokens, g.token.map (·.id) ≠ some t.id) :
    ∃ made, groupsOnto groups records = .ok (made.reverse ++ groups) ∧
      List.Forall₂ (Shows c tokens records) (tokens.filter (recordsOf records · ≠ [])) made := by
  induction blocks generalizing groups with
  | nil => exact ⟨[], rfl, .nil⟩
  | @cons c t rest new records abut _ blocks ih =>
    obtain ⟨own, others⟩ := blocks.split abut serials
    have lower {made : List Group}
        (gathered : List.Forall₂ (Shows (c.pass t) rest records) (rest.filter (recordsOf records · ≠ [])) made) :
        List.Forall₂ (Shows c (t :: rest) (new ++ records)) (rest.filter (recordsOf (new ++ records) · ≠ [])) made := by
      have same : rest.filter (recordsOf (new ++ records) · ≠ []) = rest.filter (recordsOf records · ≠ []) :=
        List.filter_congr fun u member => by rw [others u member]
      rw [same]
      refine gathered.imp ?_
      rintro u g ⟨token, data, along, front, back, rfl, position⟩
      have equal := others u (by simp)
      exact ⟨token, by rw [equal, data], by rw [equal]; exact along, t :: front, back, rfl, position⟩
    have distinct := (List.nodup_cons.mp serials)
    by_cases empty : new = []
    · subst empty
      obtain ⟨made, grouped, gathered⟩ := ih distinct.2 known fun g head u member =>
        apart g head u (List.mem_cons_of_mem _ member)
      refine ⟨made, grouped, ?_⟩
      have none : recordsOf records t = [] := own
      rw [List.filter_cons_of_neg (by simp [none])]
      exact lower gathered
    · have later : ∀ g ∈ (⟨c.output, new.flatMap Record.held, some t⟩ :: groups : List Group).head?,
          ∀ u ∈ rest, g.token.map (·.id) ≠ some u.id := by
        rintro g head u member same
        cases head
        exact distinct.1 (List.mem_map.mpr ⟨u, member, (Option.some.inj same).symm⟩)
      obtain ⟨made, grouped, gathered⟩ := ih distinct.2 (fun r member => known r (List.mem_append_right _ member)) later
      refine ⟨⟨c.output, new.flatMap Record.held, some t⟩ :: made, ?_, ?_⟩
      · rw [groupsOnto_block abut empty (fun r member => known r (List.mem_append_left _ member))
          (fun g head => apart g head t List.mem_cons_self), grouped]
        simp
      · rw [List.filter_cons_of_pos (by simp [own, empty])]
        refine .cons ⟨rfl, by rw [own], by rw [own]; exact abut, [], rest, rfl, rfl⟩ (lower gathered)

theorem groups_blocks (blocks : Blocks c tokens records) (serials : (tokens.map (·.id)).Nodup)
    (known : ∀ r ∈ records, ∃ bytes, r.data = .ok bytes) :
    ∃ made, Listing.groups records = .ok made ∧
      List.Forall₂ (Shows c tokens records) (tokens.filter (recordsOf records · ≠ [])) made := by
  have fresh : ∀ g ∈ ([] : List Group).head?, ∀ t ∈ tokens, g.token.map (·.id) ≠ some t.id := by simp
  obtain ⟨made, grouped, gathered⟩ := groupsOnto_blocks blocks serials known fresh
  refine ⟨made, ?_, gathered⟩
  rw [Listing.groups, grouped]
  simp

end Listing

section

variable {base position : Int} {t : Token} {new records : List Record} {e last : Emission}

theorem Record.Abut.image (abut : Record.Abut t position new) (writes : Emission.Writes base records e last)
    (within : ∀ r ∈ new, r ∈ records) (known : ∀ r ∈ new, ∃ bytes, r.data = .ok bytes) {k : Nat} {byte : UInt8}
    (given : (new.flatMap Record.held)[k]? = some byte) :
    ∃ i : Nat, (i : Int) = position - base + k ∧ last.sink.content[i]? = some byte := by
  induction new generalizing position k with
  | nil => simp at given
  | cons r more ih =>
    obtain ⟨bytes, here⟩ := known r List.mem_cons_self
    obtain ⟨_, place, later⟩ := abut
    have length := Record.length_data here
    rw [List.flatMap_cons, Record.held_eq here] at given
    by_cases inside : k < bytes.length
    · rw [List.getElem?_append_left inside] at given
      have nonempty : bytes ≠ [] := by
        rintro rfl
        simp at inside
      obtain ⟨offset, start⟩ := writes.offset r (within r List.mem_cons_self) bytes here nonempty
      refine ⟨offset + k, by push_cast; omega, ?_⟩
      exact writes.getElem? (within r List.mem_cons_self) ⟨bytes, k, here, given, by push_cast; omega⟩
    · rw [List.getElem?_append_right (Nat.le_of_not_lt inside)] at given
      obtain ⟨i, there, found⟩ := ih later (fun x member => within x (List.mem_cons_of_mem _ member))
        (fun x member => known x (List.mem_cons_of_mem _ member)) given
      exact ⟨i, by omega, found⟩

theorem flatMap_held_length (known : ∀ r ∈ new, ∃ bytes, r.data = .ok bytes) :
    (new.flatMap Record.held).length = (new.map Record.size).sum := by
  rw [List.length_flatMap]
  congr 1
  apply List.map_congr_left
  intro r member
  obtain ⟨bytes, here⟩ := known r member
  rw [Record.held_eq here, Record.length_data here]

-- What a group holds is a piece of the image, the whole of which lies inside.
theorem Record.Abut.slice (abut : Record.Abut t position new) (writes : Emission.Writes base records e last)
    (within : ∀ r ∈ new, r ∈ records) (known : ∀ r ∈ new, ∃ bytes, r.data = .ok bytes) :
    new.flatMap Record.held =
        (last.sink.content.toList.drop (position - base).toNat).take (new.map Record.size).sum ∧
      ((new.map Record.size).sum ≠ 0 →
        base ≤ position ∧ (position - base).toNat + (new.map Record.size).sum ≤ last.sink.content.size) := by
  rw [← flatMap_held_length known]
  have placed {k : Nat} (inside : k < (new.flatMap Record.held).length) : base ≤ position ∧
      last.sink.content[(position - base).toNat + k]? = (new.flatMap Record.held)[k]? := by
    have start := abut.image writes within known (List.getElem?_eq_getElem (show 0 < (new.flatMap Record.held).length by omega))
    obtain ⟨first, there, _⟩ := start
    obtain ⟨i, here, found⟩ := abut.image writes within known (List.getElem?_eq_getElem inside)
    have same : (position - base).toNat + k = i := by omega
    rw [same, found, List.getElem?_eq_getElem inside]
    exact ⟨by omega, rfl⟩
  refine ⟨?_, ?_⟩
  · apply List.ext_getElem?
    intro k
    by_cases inside : k < (new.flatMap Record.held).length
    · rw [List.getElem?_take_of_lt inside, List.getElem?_drop, ← (placed inside).2, Array.getElem?_toList]
    · rw [List.getElem?_eq_none (Nat.le_of_not_lt inside), List.getElem?_take_eq_none (Nat.le_of_not_lt inside)]
  · intro some
    have last := placed (Nat.sub_one_lt some)
    refine ⟨last.1, ?_⟩
    have bound := (Array.getElem?_eq_some_iff.mp (last.2.trans (List.getElem?_eq_getElem (Nat.sub_one_lt some)))).1
    omega

end

end RuneAsm
