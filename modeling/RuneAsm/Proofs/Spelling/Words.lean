import Mathlib
import RuneAsm.Reader

namespace RuneAsm

-- Words that stand for bytes. A numeral of two or four digits is read back as the number it was written for, and so is
-- each mnemonic, whatever the order of its flags. A numeral has no capital letter and a mnemonic starts with one, so
-- neither is taken for the other.

namespace Text

variable {c : Char} {n width : Nat}

theorem hexValue?_hexDigit : ∀ d < 16, hexValue? (hexDigit false d) = some d := by decide

theorem hexDigit_lower : ∀ d < 16, (hexDigit false d).isAlphanum = true ∧ (hexDigit false d).isUpper = false := by decide

-- The last so many digits of a number.
def hexPlaces : Nat → Nat → List Char
  | 0, _ => []
  | width + 1, n => hexPlaces width (n / 16) ++ [hexDigit false (n % 16)]

theorem length_hexPlaces (width n : Nat) : (hexPlaces width n).length = width := by
  induction width generalizing n with
  | zero => rfl
  | succ width ih => simp [hexPlaces, ih]

theorem mem_hexPlaces (member : c ∈ hexPlaces width n) : ∃ d < 16, c = hexDigit false d := by
  induction width generalizing n with
  | zero => cases member
  | succ width ih =>
    rcases List.mem_append.mp member with earlier | last
    · exact ih earlier
    · exact ⟨n % 16, Nat.mod_lt n (by decide), List.mem_singleton.mp last⟩

theorem zeroFilled_snoc (width : Nat) (digits : List Char) (c : Char) :
    zeroFilled (width + 1) (digits ++ [c]) = zeroFilled width digits ++ [c] := by
  simp [zeroFilled]

-- Where the digits fit into the width, zeros fill what is left of it.
theorem zeroFilled_hexDigits (fits : n < 16 ^ (width + 1)) :
    zeroFilled (width + 1) (hexDigits false n) = hexPlaces (width + 1) n := by
  induction width generalizing n with
  | zero =>
    have small : n < 16 := fits
    rw [hexDigits, if_pos small, hexPlaces, Nat.mod_eq_of_lt small]
    rfl
  | succ width ih =>
    rw [hexPlaces]
    by_cases small : n < 16
    · have zeros : zeroFilled (width + 1) (hexDigits false 0) = hexPlaces (width + 1) 0 := ih (Nat.pow_pos (by decide))
      rw [Nat.div_eq_of_lt small, Nat.mod_eq_of_lt small, ← zeros, hexDigits, if_pos small, hexDigits]
      simp [zeroFilled, List.replicate_succ', hexDigit]
    · have shorter : n / 16 < 16 ^ (width + 1) := Nat.div_lt_of_lt_mul (by rwa [← Nat.pow_succ'])
      rw [hexDigits, if_neg small, zeroFilled_snoc, ih shorter]

theorem foldlM_hexPlaces (fits : n < 16 ^ width) :
    (hexPlaces width n).foldlM (fun value c => (hexValue? c).map (16 * value + ·)) 0 = some n := by
  induction width generalizing n with
  | zero =>
    have zero : n = 0 := Nat.lt_one_iff.mp fits
    rw [zero]
    rfl
  | succ width ih =>
    have shorter : n / 16 < 16 ^ width := Nat.div_lt_of_lt_mul (by rwa [← Nat.pow_succ'])
    have last := hexValue?_hexDigit (n % 16) (Nat.mod_lt n (by decide))
    rw [hexPlaces, List.foldlM_append, ih shorter]
    simp [last, Nat.div_add_mod]

theorem readHex?_hexPlaces (fits : n < 16 ^ (width + 1)) : readHex? (hexPlaces (width + 1) n) = some n := by
  have digits : (hexPlaces (width + 1) n).isEmpty = false := by simp [hexPlaces]
  rw [readHex?, digits]
  exact foldlM_hexPlaces fits

theorem hexNumeral_toList (upper : Bool) (width n : Nat) :
    (hexNumeral upper width n).toList = zeroFilled width (hexDigits upper n) := by
  rw [hexNumeral, if_neg (Int.not_lt.mpr n.cast_nonneg), String.toList_ofList, Int.natAbs_natCast]

theorem byteNumeral_toList (b : UInt8) : (byteNumeral b).toList = hexPlaces 2 b.toNat := by
  rw [byteNumeral, hexNumeral_toList]
  exact zeroFilled_hexDigits b.toNat_lt

theorem address_toList (fits : n < 0x10000) : (address n).toList = hexPlaces 4 n := by
  rw [address, hexNumeral_toList]
  exact zeroFilled_hexDigits fits

end Text

namespace Opcode

variable {m m' : String} {b : UInt8} {marks marks' : List Char} {bits : Nat}

theorem mem_of_findIdx? {names : List String} {i : Nat} (found : names.findIdx? (· = m) = some i) : m ∈ names := by
  have present : (names.findIdx? (· = m)).isSome = true := by
    rw [found]
    rfl
  rw [List.findIdx?_isSome] at present
  simpa using present

theorem flagBits?_cons (c : Char) (marks : List Char) : flagBits? (c :: marks) =
    (flagBit? c).bind fun bit => (flagBits? marks).bind fun bits => if bits &&& bit = 0 then some (bits + bit) else none := rfl

theorem flagBit?_mem {c : Char} {bit : Nat} (flag : flagBit? c = some bit) : (c, bit) ∈ flags := by
  obtain ⟨before, after, split, _⟩ := List.lookup_eq_some_iff.mp flag
  rw [split]
  exact List.mem_append_right _ List.mem_cons_self

theorem flagBits?_alphanum (sum : flagBits? marks = some bits) : marks.all Char.isAlphanum = true := by
  induction marks generalizing bits with
  | nil => rfl
  | cons c marks ih =>
    have plain : ∀ flag ∈ flags, flag.1.isAlphanum = true := by decide
    obtain ⟨bit, flag, rest⟩ := Option.bind_eq_some_iff.mp sum
    obtain ⟨more, later, _⟩ := Option.bind_eq_some_iff.mp rest
    rw [List.all_cons, plain _ (flagBit?_mem flag), ih later]
    rfl

-- Letters and digits, a capital letter first.
def isCapitalized (word : List Char) : Bool := word.head?.any Char.isUpper && word.all Char.isAlphanum

theorem isCapitalized_append (word more : List Char) (capital : isCapitalized word = true)
    (plain : more.all Char.isAlphanum = true) : isCapitalized (word ++ more) = true := by
  cases word with
  | nil => cases capital
  | cons c rest =>
    simp only [isCapitalized, List.cons_append, List.head?_cons, List.all_cons, List.all_append, plain, Bool.and_true]
      at capital ⊢
    exact capital

theorem names_capitalized : ∀ name ∈ "LITr2" :: immediates ++ operations, isCapitalized name.toList = true := by
  have all : ("LITr2" :: immediates ++ operations).all (fun name => isCapitalized name.toList) = true := by decide +kernel
  exact List.all_eq_true.mp all

theorem mem_of_immediate? {value : Nat} (found : immediate? m = some value) : m ∈ "LITr2" :: immediates := by
  unfold immediate? at found
  split at found
  · rename_i same
    rw [same]
    exact List.mem_cons_self
  · obtain ⟨i, found, _⟩ := Option.map_eq_some_iff.mp found
    exact List.mem_cons_of_mem _ (mem_of_findIdx? found)

theorem ofMnemonic?_capitalized (known : ofMnemonic? m = some b) : isCapitalized m.toList = true := by
  obtain ⟨value, found, _⟩ := Option.map_eq_some_iff.mp known
  rcases Option.or_eq_some_iff.mp found with immediate | ⟨_, flagged⟩
  · exact names_capitalized m (List.mem_append_left _ (mem_of_immediate? immediate))
  · obtain ⟨number, operation, rest⟩ := Option.bind_eq_some_iff.mp flagged
    have base := names_capitalized _ (List.mem_append_right _ (mem_of_findIdx? operation))
    split at rest
    · cases rest
    · obtain ⟨bits, sum, _⟩ := Option.bind_eq_some_iff.mp rest
      rw [String.toList_ofList] at base
      rw [← List.take_append_drop 3 m.toList]
      exact isCapitalized_append _ _ base (flagBits?_alphanum sum)

-- A sum of flags is one of eight.
theorem flagBits?_eighth (sum : flagBits? marks = some bits) : ∃ k < 8, bits = 0x20 * k := by
  induction marks generalizing bits with
  | nil =>
    cases sum
    exact ⟨0, by decide, rfl⟩
  | cons c marks ih =>
    have more : ∀ k < 8, ∀ flag ∈ flags, 0x20 * k &&& flag.2 = 0 → ∃ j < 8, 0x20 * k + flag.2 = 0x20 * j := by decide
    obtain ⟨bit, flag, rest⟩ := Option.bind_eq_some_iff.mp sum
    obtain ⟨earlier, later, added⟩ := Option.bind_eq_some_iff.mp rest
    obtain ⟨k, few, rfl⟩ := ih later
    split at added
    · rename_i apart
      cases added
      exact more k few (c, bit) (flagBit?_mem flag) apart
    · cases added

def addFlag (bit bits : Nat) : Option Nat := if bits &&& bit = 0 then some (bits + bit) else none

theorem addFlag_comm : ∀ k < 8, ∀ f ∈ flags, ∀ g ∈ flags,
    (addFlag g.2 (0x20 * k)).bind (addFlag f.2) = (addFlag f.2 (0x20 * k)).bind (addFlag g.2) := by decide

theorem flagBits?_swap (c d : Char) (marks : List Char) : flagBits? (c :: d :: marks) = flagBits? (d :: c :: marks) := by
  simp only [flagBits?_cons]
  cases first : flagBit? c with
  | none => cases flagBit? d <;> rfl
  | some x =>
    cases second : flagBit? d with
    | none => rfl
    | some y =>
      cases sum : flagBits? marks with
      | none => rfl
      | some bits =>
        obtain ⟨k, few, rfl⟩ := flagBits?_eighth sum
        exact addFlag_comm k few (c, x) (flagBit?_mem first) (d, y) (flagBit?_mem second)

theorem flagBits?_perm (perm : marks.Perm marks') : flagBits? marks = flagBits? marks' := by
  induction perm with
  | nil => rfl
  | cons c _ ih => rw [flagBits?_cons, flagBits?_cons, ih]
  | swap c d marks => exact flagBits?_swap d c marks
  | trans _ _ first second => exact first.trans second

-- The one immediate instruction with two marks has both its spellings in the table.
theorem immediate?_reordered (same : m.toList.take 3 = m'.toList.take 3)
    (perm : (m.toList.drop 3).Perm (m'.toList.drop 3)) (member : m ∈ "LITr2" :: immediates) :
    immediate? m' = immediate? m := by
  have orders : ("LITr2" :: immediates).all (fun name => (name.toList.drop 3).permutations'.all (fun marks =>
      immediate? (String.ofList (name.toList.take 3 ++ marks)) = immediate? name)) = true := by decide +kernel
  have spelled := List.all_eq_true.mp (List.all_eq_true.mp orders m member) _ (List.mem_permutations'.mpr perm.symm)
  rw [same, List.take_append_drop, String.ofList_toList] at spelled
  exact of_decide_eq_true spelled

theorem immediate?_perm (same : m.toList.take 3 = m'.toList.take 3) (perm : (m.toList.drop 3).Perm (m'.toList.drop 3)) :
    immediate? m = immediate? m' := by
  cases found : immediate? m with
  | some value => rw [immediate?_reordered same perm (mem_of_immediate? found), found]
  | none =>
    cases found' : immediate? m' with
    | none => rfl
    | some value =>
      have back := immediate?_reordered same.symm perm.symm (mem_of_immediate? found')
      rw [found, found'] at back
      exact back

theorem ofMnemonic?_perm (same : m.toList.take 3 = m'.toList.take 3) (perm : (m.toList.drop 3).Perm (m'.toList.drop 3)) :
    ofMnemonic? m = ofMnemonic? m' := by
  unfold ofMnemonic? flagged?
  rw [immediate?_perm same perm]
  dsimp only
  rw [same, flagBits?_perm perm]

theorem immediates_read : ∀ k < 8, ofMnemonic? (immediates.getD k "") = some (UInt8.ofNat (0x20 * k)) := by decide +kernel

theorem operations_read : ∀ k < 32, (operations.getD k "").toList.length = 3 ∧ operation? (operations.getD k "") = some k := by
  decide +kernel

theorem flagText_read : ∀ n < 0x100, flagBits? (flagText n).toList = some (0x20 * (n / 0x20)) := by decide +kernel

-- No immediate instruction has the letters of an operation that takes flags.
theorem operation?_immediate {value number : Nat} (found : immediate? m = some value)
    (operation : operation? (String.ofList (m.toList.take 3)) = some number) : number = 0 := by
  have apart : ("LITr2" :: immediates).all (fun name =>
      (operation? (String.ofList (name.toList.take 3))).all (fun number => number = 0)) = true := by decide +kernel
  have here := List.all_eq_true.mp apart m (mem_of_immediate? found)
  rw [operation] at here
  exact of_decide_eq_true here

theorem ofMnemonic?_flagged {number : Nat} (operation : operation? (String.ofList (m.toList.take 3)) = some number)
    (operated : number ≠ 0) (sum : flagBits? (m.toList.drop 3) = some bits) :
    ofMnemonic? m = some (UInt8.ofNat (bits + number)) := by
  have noImmediate : immediate? m = none := by
    cases found : immediate? m with
    | none => rfl
    | some value => exact absurd (operation?_immediate found operation) operated
  have flagged : flagged? m = some (bits + number) := by simp [flagged?, operation, operated, sum]
  rw [ofMnemonic?, noImmediate, flagged]
  rfl

theorem ofMnemonic?_mnemonic (b : UInt8) : ofMnemonic? (mnemonic b) = some b := by
  have small := b.toNat_lt
  have halves := Nat.div_add_mod b.toNat 0x20
  rw [mnemonic]
  split
  · rename_i multiple
    rw [immediates_read (b.toNat / 0x20) (by omega), show 0x20 * (b.toNat / 0x20) = b.toNat by omega, UInt8.ofNat_toNat]
  · rename_i operated
    obtain ⟨long, operation⟩ := operations_read (b.toNat % 0x20) (Nat.mod_lt _ (by decide))
    have known : ofMnemonic? (operations.getD (b.toNat % 0x20) "" ++ flagText b.toNat) =
        some (UInt8.ofNat (0x20 * (b.toNat / 0x20) + b.toNat % 0x20)) := by
      apply ofMnemonic?_flagged _ operated
      · rw [String.toList_append, List.drop_left' long, flagText_read _ small]
      · rw [String.toList_append, List.take_left' long, String.ofList_toList, operation]
    rw [known, halves, UInt8.ofNat_toNat]

end Opcode

-- A word for one byte or two.
inductive Spelling where
  | byte (b : UInt8)
  | short (high low : UInt8)
  | instruction (mnemonic : String) (b : UInt8) (known : Opcode.ofMnemonic? mnemonic = some b)

namespace Spelling

def value (high low : UInt8) : Nat := 0x100 * high.toNat + low.toNat

def text : Spelling → List Char
  | .byte b => (Text.byteNumeral b).toList
  | .short high low => (Text.address (value high low)).toList
  | .instruction mnemonic _ _ => mnemonic.toList

def bytes : Spelling → List UInt8
  | .byte b => [b]
  | .short high low => [high, low]
  | .instruction _ b _ => [b]

def kind : Spelling → TokenKind
  | .byte b => .rawHex b.toNat .byte
  | .short high low => .rawHex (value high low) .short
  | .instruction _ b _ => .opcode b.toNat

theorem value_lt (high low : UInt8) : value high low < 0x10000 := by
  have first := high.toNat_lt
  have second := low.toNat_lt
  unfold value
  omega

end Spelling

theorem apart_of_isAlphanum {c : Char} (plain : c.isAlphanum = true) :
    isBlank c = false ∧ isBracket c = false ∧ c ≠ '(' ∧ c ≠ ')' ∧ Rune.ofChar? c = none := by
  refine ⟨?_, ?_, ?_, ?_, ?_⟩
  · refine Bool.eq_false_iff.mpr fun blank => ?_
    have cases : c = ' ' ∨ c = '\t' ∨ c = '\r' ∨ c = '\n' := by simpa [isBlank, or_assoc] using blank
    rcases cases with rfl | rfl | rfl | rfl <;> exact absurd plain (by decide)
  · refine Bool.eq_false_iff.mpr fun bracket => ?_
    have cases : c = '[' ∨ c = ']' ∨ c = '\x7b' ∨ c = '\x7d' := by simpa [isBracket, or_assoc] using bracket
    rcases cases with rfl | rfl | rfl | rfl <;> exact absurd plain (by decide)
  · rintro rfl
    exact absurd plain (by decide)
  · rintro rfl
    exact absurd plain (by decide)
  · unfold Rune.ofChar?
    split
    all_goals first | rfl | exact absurd plain (by decide)

namespace Spelling

theorem text_eq (w : Spelling) : (∃ width n, w.text = Text.hexPlaces (width + 1) n) ∨ Opcode.isCapitalized w.text = true := by
  cases w with
  | byte b => exact .inl ⟨1, b.toNat, Text.byteNumeral_toList b⟩
  | short high low => exact .inl ⟨3, value high low, Text.address_toList (value_lt high low)⟩
  | instruction mnemonic b known => exact .inr (Opcode.ofMnemonic?_capitalized known)

theorem isAlphanum_of_mem (w : Spelling) {c : Char} (member : c ∈ w.text) : c.isAlphanum = true := by
  rcases w.text_eq with ⟨width, n, text⟩ | capital
  · rw [text] at member
    obtain ⟨d, digit, rfl⟩ := Text.mem_hexPlaces member
    exact (Text.hexDigit_lower d digit).1
  · exact List.all_eq_true.mp (Bool.and_eq_true_iff.mp capital).2 c member

theorem text_ne_nil (w : Spelling) : w.text ≠ [] := by
  rcases w.text_eq with ⟨width, n, text⟩ | capital
  · rw [text]
    simp [Text.hexPlaces]
  · intro empty
    rw [empty] at capital
    cases capital

-- A numeral has no capital letter, so it is no mnemonic.
theorem numeral_unknown (width n : Nat) : Opcode.ofMnemonic? (String.ofList (Text.hexPlaces width n)) = none := by
  cases known : Opcode.ofMnemonic? (String.ofList (Text.hexPlaces width n)) with
  | none => rfl
  | some b =>
    have capital := Opcode.ofMnemonic?_capitalized known
    rw [String.toList_ofList] at capital
    cases digits : Text.hexPlaces width n with
    | nil =>
      rw [digits] at capital
      cases capital
    | cons c rest =>
      obtain ⟨d, digit, rfl⟩ := Text.mem_hexPlaces (digits ▸ List.mem_cons_self : c ∈ Text.hexPlaces width n)
      rw [digits] at capital
      have upper : (Text.hexDigit false d).isUpper = true := (Bool.and_eq_true_iff.mp capital).1
      rw [(Text.hexDigit_lower d digit).2] at upper
      cases upper

theorem plainWord_numeral (r : Reader) (width : Nat) {first : Char} {rest : List Char} {n : Nat}
    (spelled : first :: rest = Text.hexPlaces (width + 1) n) (size : width + 1 = 2 ∨ width + 1 = 4)
    (fits : n < 16 ^ (width + 1)) :
    r.plainWord first rest = r.push (first :: rest) (.rawHex n (if width + 1 ≤ 2 then .byte else .short)) := by
  have long : (first :: rest).length = width + 1 := by rw [spelled, Text.length_hexPlaces]
  have read : Reader.rawNumber? (first :: rest) = some n := by
    rw [Reader.rawNumber?, long, if_pos size, spelled]
    exact Text.readHex?_hexPlaces fits
  have unknown : Opcode.ofMnemonic? (String.ofList (first :: rest)) = none := by
    rw [spelled]
    exact numeral_unknown (width + 1) n
  simp only [Reader.plainWord, unknown, read, Reader.widthOf, long]

theorem plainWord_eq (w : Spelling) {first : Char} {rest : List Char} (spelled : first :: rest = w.text) (r : Reader) :
    r.plainWord first rest = r.push (first :: rest) w.kind := by
  cases w with
  | byte b =>
    exact plainWord_numeral r 1 (spelled.trans (Text.byteNumeral_toList b)) (.inl rfl) b.toNat_lt
  | short high low =>
    have fits := value_lt high low
    exact plainWord_numeral r 3 (spelled.trans (Text.address_toList fits)) (.inr rfl) fits
  | instruction mnemonic b known =>
    have whole : String.ofList (first :: rest) = mnemonic := by
      rw [spelled]
      exact String.ofList_toList
    simp only [Reader.plainWord, whole, known]
    rfl

-- Each word is read as one token that says which bytes it stands for.
theorem word_eq (w : Spelling) {first : Char} {rest : List Char} (spelled : first :: rest = w.text) (r : Reader) :
    r.word first rest = r.push (first :: rest) w.kind := by
  obtain ⟨_, _, _, noParenthesis, noRune⟩ :=
    apart_of_isAlphanum (w.isAlphanum_of_mem (spelled ▸ List.mem_cons_self : first ∈ w.text))
  rw [Reader.word, if_neg noParenthesis, noRune]
  exact w.plainWord_eq spelled r

end Spelling

end RuneAsm
