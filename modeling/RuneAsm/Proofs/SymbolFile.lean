import Mathlib
import RuneAsm.Proofs.Lines
import RuneAsm.Proofs.Positions
import RuneAsm.Proofs.Reuse
import RuneAsm.Proofs.Spelling.Words
import RuneAsm.Proofs.Splicing.Layout
import RuneAsm.Proofs.Utf8

namespace RuneAsm

open Run

-- The symbol file read back. What is written under a path is found under it, the bytes are those of the text, the text
-- falls into the lines it was made of, and each line of a label gives back its name and its address.

namespace Disk

variable {d after : Disk} {path : String} {content : List UInt8}

theorem write_ok (written : d.write path content = .ok after) :
    ∃ place, d.follow path = .ok place ∧ d.node? place ≠ some .directory ∧ after = d.put place (.file content) := by
  unfold write at written
  dsimp only at written
  split at written
  · cases written
  · rename_i place reached
    split at written
    · cases written
    · rename_i whole
      have name : Path.withoutFinalSlashes path = path := by simpa using whole
      rw [name, ite_self] at reached
      split at written
      · cases written
      · rename_i free
        cases written
        exact ⟨place, reached, fun directory => free directory, rfl⟩

theorem lookup?_of_write (written : d.write path content = .ok after) : after.lookup? path = some (.file content) := by
  obtain ⟨place, reached, free, rfl⟩ := write_ok written
  unfold lookup?
  rw [follow_put reached free]
  exact node?_put_self d place (.file content)

end Disk

namespace Text

theorem toLower_hexDigit : ∀ d < 16, (hexDigit true d).toLower = hexDigit false d := by decide

theorem toLower_hexDigits (n : Nat) : (hexDigits true n).map Char.toLower = hexDigits false n := by
  induction n using Nat.strongRecOn with
  | ind n ih =>
    rw [hexDigits, hexDigits.eq_def false n]
    by_cases small : n < 16
    · rw [if_pos small, if_pos small, List.map_singleton, toLower_hexDigit n small]
    · have less : n / 16 < n := Nat.div_lt_self (by omega) (by decide)
      have last := toLower_hexDigit (n % 16) (Nat.mod_lt n (by decide))
      rw [if_neg small, if_neg small, List.map_append, ih _ less, List.map_singleton, last]

-- However many digits a number has.
theorem foldlM_hexDigits (n : Nat) :
    (hexDigits false n).foldlM (fun value c => (hexValue? c).map (16 * value + ·)) 0 = some n := by
  induction n using Nat.strongRecOn with
  | ind n ih =>
    rw [hexDigits]
    by_cases small : n < 16
    · simp [small, hexValue?_hexDigit n small]
    · have less : n / 16 < n := Nat.div_lt_self (by omega) (by decide)
      have last := hexValue?_hexDigit (n % 16) (Nat.mod_lt n (by decide))
      rw [if_neg small, List.foldlM_append, ih _ less]
      simp [last, Nat.div_add_mod]

theorem foldlM_zeros (count : Nat) :
    (List.replicate count '0').foldlM (fun value c => (hexValue? c).map (16 * value + ·)) 0 = some 0 := by
  induction count with
  | zero => rfl
  | succ count ih =>
    rw [List.replicate_succ, List.foldlM_cons]
    exact ih

theorem hexDigits_ne_nil (upper : Bool) (n : Nat) : hexDigits upper n ≠ [] := by
  rw [hexDigits]
  split <;> simp

theorem readHex?_zeroFilled (width n : Nat) : readHex? (zeroFilled width (hexDigits false n)) = some n := by
  have digits : (zeroFilled width (hexDigits false n)).isEmpty = false := by simp [zeroFilled, hexDigits_ne_nil]
  rw [readHex?, digits, if_neg (by decide), zeroFilled, List.foldlM_append, foldlM_zeros]
  exact foldlM_hexDigits n

theorem mem_hexDigits {c : Char} {upper : Bool} {n : Nat} (member : c ∈ hexDigits upper n) :
    ∃ d < 16, c = hexDigit upper d := by
  induction n using Nat.strongRecOn with
  | ind n ih =>
    rw [hexDigits] at member
    split at member
    · rename_i small
      exact ⟨n, small, List.mem_singleton.mp member⟩
    · rcases List.mem_append.mp member with earlier | last
      · exact ih _ (Nat.div_lt_self (by omega) (by decide)) earlier
      · exact ⟨n % 16, Nat.mod_lt n (by decide), List.mem_singleton.mp last⟩

theorem hexDigit_not_blank : ∀ upper, ∀ d < 16, isBlank (hexDigit upper d) = false := by decide

theorem not_blank_of_mem_hexNumeral {c : Char} {upper : Bool} {width : Nat} {z : Int}
    (member : c ∈ (hexNumeral upper width z).toList) : isBlank c = false := by
  have digit (inside : c ∈ zeroFilled width (hexDigits upper z.natAbs) ∨
      c ∈ zeroFilled (width - 1) (hexDigits upper z.natAbs)) : isBlank c = false := by
    have parts : c = '0' ∨ c ∈ hexDigits upper z.natAbs := by
      simp only [zeroFilled, List.mem_append, List.mem_replicate] at inside
      tauto
    rcases parts with rfl | written
    · rfl
    · obtain ⟨d, small, rfl⟩ := mem_hexDigits written
      exact hexDigit_not_blank upper d small
  unfold hexNumeral at member
  split at member
  · rw [String.toList_ofList] at member
    rcases List.mem_cons.mp member with rfl | later
    · rfl
    · exact digit (.inr later)
  · rw [String.toList_ofList] at member
    exact digit (.inl member)

end Text

namespace Listing

variable {addresses : List (String × Int)}

theorem sorted_perm (addresses : List (String × Int)) : (sorted addresses).Perm addresses := List.mergeSort_perm _ _

theorem sorted_increasing (distinct : (addresses.map (·.1)).Nodup) : ((sorted addresses).map (·.1)).Pairwise (· < ·) := by
  have ordered : (sorted addresses).Pairwise fun x y => x.1 ≤ y.1 := by
    unfold sorted
    have pairwise := @List.pairwise_mergeSort _ (fun x y : String × Int => decide (x.1 ≤ y.1))
      (by
        intro x y z first second
        simp only [decide_eq_true_eq] at first second ⊢
        exact le_trans first second)
      (by
        intro x y
        simpa using le_total x.1 y.1) addresses
    simpa using pairwise
  have apart : ((sorted addresses).map (·.1)).Nodup := (((sorted_perm addresses).map _).nodup_iff).mpr distinct
  rw [List.pairwise_map]
  refine (ordered.and (List.pairwise_map.mp apart)).imp ?_
  rintro x y ⟨order, differs⟩
  exact lt_of_le_of_ne order differs

end Listing

namespace SymbolFile

variable {entry : String × Int}

-- A name, the only space, a dollar sign and digits of base sixteen in either case.
def readLine? (row : List Char) : Option (String × Int) :=
  match row.splitOn ' ' with
  | [name, '$' :: digits] => (Text.readHex? (digits.map Char.toLower)).map fun n : Nat => (String.ofList name, (n : Int))
  | _ => none

theorem line_toList (entry : String × Int) :
    (line entry).toList = entry.1.toList ++ ' ' :: '$' :: (Text.hexNumeral true 4 entry.2).toList := by
  simp [line, toString]

theorem space_not_mem (plain : Plain entry.1) : ' ' ∉ entry.1.toList := fun member => absurd (plain ' ' member) (by decide)

theorem space_not_mem_value (entry : String × Int) : ' ' ∉ '$' :: (Text.hexNumeral true 4 entry.2).toList := by
  intro member
  rcases List.mem_cons.mp member with dollar | digit
  · cases dollar
  · exact absurd (Text.not_blank_of_mem_hexNumeral digit) (by decide)

theorem line_count (plain : Plain entry.1) : (line entry).toList.count ' ' = 1 := by
  rw [line_toList, List.count_append, List.count_cons_self, List.count_eq_zero_of_not_mem (space_not_mem plain),
    List.count_eq_zero_of_not_mem (space_not_mem_value entry)]

theorem readLine?_line (plain : Plain entry.1) (nonnegative : 0 ≤ entry.2) :
    readLine? (line entry).toList = some entry := by
  obtain ⟨name, value⟩ := entry
  obtain ⟨n, rfl⟩ := Int.eq_ofNat_of_zero_le nonnegative
  have lower : ((Text.hexNumeral true 4 (n : Int)).toList).map Char.toLower =
      Text.zeroFilled 4 (Text.hexDigits false n) := by
    rw [Text.hexNumeral_toList, ← Text.toLower_hexDigits n]
    simp [Text.zeroFilled]
  have pieces : (line (name, (n : Int))).toList.splitOn ' ' =
      [name.toList, '$' :: (Text.hexNumeral true 4 (n : Int)).toList] := by
    rw [line_toList, List.splitOn_append_cons_self_of_not_mem (space_not_mem plain),
      List.splitOn_eq_singleton (space_not_mem_value (name, (n : Int)))]
  unfold readLine?
  rw [pieces]
  simp only [lower, Text.readHex?_zeroFilled, Option.map_some, String.ofList_toList]

theorem newline_not_mem_line (plain : Plain entry.1) : '\n' ∉ (line entry).toList := by
  rw [line_toList]
  intro member
  rcases List.mem_append.mp member with name | later
  · exact absurd (plain '\n' name) (by decide)
  · rcases List.mem_cons.mp later with space | rest
    · cases space
    · rcases List.mem_cons.mp rest with dollar | digit
      · cases dollar
      · exact absurd (Text.not_blank_of_mem_hexNumeral digit) (by decide)

theorem newline_not_mem_header : ∀ row ∈ header.map String.toList, '\n' ∉ row := by decide

theorem render_toList (symbols : SymbolTable) : (render symbols).toList =
    ((header ++ (Listing.sorted symbols.addresses).map line).map String.toList).flatMap (· ++ ['\n']) := by
  simp [render, String.toList_join, List.flatMap_map]

theorem lines_render {symbols : SymbolTable} (plain : ∀ entry ∈ symbols.addresses, Plain entry.1) :
    Text.lines (render symbols).toList =
      header.map String.toList ++ ((Listing.sorted symbols.addresses).map (String.toList ∘ line)) ++ [[]] := by
  rw [render_toList, Text.lines_ended]
  · simp
  · intro row member
    rw [List.map_append, List.map_map] at member
    rcases List.mem_append.mp member with head | later
    · exact newline_not_mem_header row head
    · obtain ⟨entry, sorted, rfl⟩ := List.mem_map.mp later
      exact newline_not_mem_line (plain entry ((Listing.sorted_perm _).subset sorted))

end SymbolFile

namespace Assembler

variable {a b : Assembler} {disk target : Disk} {input : Input} {path : String} {w : Written}

theorem named_of_assembleInput (ran : a.assembleInput disk input = .ok b) :
    (b.namedAddresses.map (·.1)).Nodup ∧
      ∀ entry ∈ b.namedAddresses, Plain entry.1 ∧ (0 ≤ a.settings.loadBase → 0 ≤ entry.2) := by
  rw [assembleInput_eq] at ran
  obtain ⟨settings, e, expanded, tokens, complete⟩ := (assembleWith_leaves a _ _).ok ran
  obtain ⟨holds, orderly, settled⟩ := Input.expand_prepared expanded
  obtain ⟨last, generated, _, symbols⟩ := complete.laid
  rw [tokens] at generated
  obtain ⟨distinct, named⟩ := Layout.generate_addresses (settled.prepared holds orderly) generated
  rw [namedAddresses, symbols]
  refine ⟨SymbolTable.nodup_addresses distinct, ?_⟩
  rintro ⟨name, address⟩ member
  obtain ⟨plain, found⟩ := (named name address).mp member
  refine ⟨plain, ?_⟩
  intro base
  rw [← settings] at base
  apply Layout.address_nonneg expanded (l := { loadBase := b.settings.loadBase, symbols := e.symbols }) base
  rw [generated]
  exact found

-- From the file itself: under the path stands a text that has, below its two headings, one line for each name and no
-- other line, in the order of the names, and each line gives back its name and its address.
theorem writeSymbols_read_back (ran : a.assembleInput disk input = .ok b) (base : 0 ≤ a.settings.loadBase)
    (written : b.writeSymbols target path = .ok w) :
    ∃ bytes text rows entries, w.disk.lookup? path = some (.file bytes) ∧ Text.Utf8.decode bytes = .ok text ∧
      Text.lines text = SymbolFile.header.map String.toList ++ rows ++ [[]] ∧
      List.Forall₂ (fun row entry => row.count ' ' = 1 ∧ SymbolFile.readLine? row = some entry) rows entries ∧
      entries.Perm b.namedAddresses ∧ (entries.map (·.1)).Pairwise (· < ·) := by
  obtain ⟨distinct, named⟩ := named_of_assembleInput ran
  have perm := Listing.sorted_perm b.namedAddresses
  unfold writeSymbols at written
  split at written
  · cases written
  · rename_i after stored
    cases written
    refine ⟨_, (SymbolFile.render b.symbols).toList, _, Listing.sorted b.namedAddresses, Disk.lookup?_of_write stored,
      Text.Utf8.decode_encode _, SymbolFile.lines_render fun entry member => (named entry member).1, ?_, perm,
      Listing.sorted_increasing distinct⟩
    rw [List.forall₂_map_left_iff, ← namedAddresses, List.forall₂_same]
    intro entry member
    obtain ⟨plain, nonnegative⟩ := named entry (perm.subset member)
    exact ⟨SymbolFile.line_count plain, SymbolFile.readLine?_line plain (nonnegative base)⟩

-- Names in another order than their addresses, an address that takes five digits, and a brace whose label is left out.
theorem writeSymbols_read_back_unordered :
    let disk : Disk := ⟨[], []⟩
    ∃ b w, ({ settings.loadBase := 0xFFFE } : Assembler).assembleInput disk
        (.text "@b #01 &é \x7b BRK \x7d @a".toList "<input>") = .ok b ∧
      b.writeSymbols disk "out" = .ok w ∧ ∃ bytes text rows entries, w.disk.lookup? "out" = some (.file bytes) ∧
        Text.Utf8.decode bytes = .ok text ∧
        Text.lines text = SymbolFile.header.map String.toList ++ rows ++ [[]] ∧
        List.Forall₂ (fun row entry => row.count ' ' = 1 ∧ SymbolFile.readLine? row = some entry) rows entries ∧
        entries.Perm [("b", 0xFFFE), ("b/é", 0x10000), ("a", 0x10004)] ∧ (entries.map (·.1)).Pairwise (· < ·) := by
  intro disk
  have made : (({ settings.loadBase := 0xFFFE } : Assembler).assembleInput disk
      (.text "@b #01 &é \x7b BRK \x7d @a".toList "<input>")).toOption.bind (fun b =>
        (b.writeSymbols disk "out").toOption.map fun _ => b.namedAddresses) =
      some [("b", 0xFFFE), ("b/é", 0x10000), ("a", 0x10004)] := by decide +kernel
  obtain ⟨b, ran, rest⟩ := Option.bind_eq_some_iff.mp made
  obtain ⟨w, written, addresses⟩ := Option.map_eq_some_iff.mp rest
  have assembled := eq_ok_of_toOption ran
  have stored := eq_ok_of_toOption written
  refine ⟨b, w, assembled, stored, ?_⟩
  rw [← addresses]
  exact writeSymbols_read_back assembled (by decide) stored

end Assembler

end RuneAsm
