import Mathlib
import RuneAsm.Proofs.Spelling.Words
import RuneAsm.Proofs.Stability
import RuneAsm.Proofs.Writing

namespace RuneAsm

open Run

-- Images spelled out. A text of words for bytes, with blanks between them, goes through every stage as it is: each word
-- becomes a token, each token a record right behind the one before it, and the image is the bytes in their order.

-- Words for bytes and blanks; what follows a word is a blank or the end of the text.
inductive Spelled : List Char → List UInt8 → Prop where
  | done : Spelled [] []
  | blank {c : Char} {text : List Char} {bytes : List UInt8} (blank : isBlank c = true) (later : Spelled text bytes) :
      Spelled (c :: text) bytes
  | word (w : Spelling) {text : List Char} {bytes : List UInt8} (parted : ∀ c ∈ text.head?, isBlank c = true)
      (later : Spelled text bytes) : Spelled (w.text ++ text) (w.bytes ++ bytes)

namespace Lexeme

def Spells : Lexeme → List UInt8 → Prop
  | .blank _, data => data = []
  | .word first rest, data => ∃ w : Spelling, first :: rest = w.text ∧ data = w.bytes
  | _, _ => False

-- A blank in front of a text is a lexeme of its own or makes the first one longer.
theorem all_blank {c : Char} (blank : isBlank c = true) (text : List Char) :
    ∃ gap rest, all (c :: text) = .blank gap :: rest ∧ (all text = rest ∨ ∃ gap', all text = .blank gap' :: rest) := by
  have head : all (c :: text) = .blank (c :: text.takeWhile isBlank) :: all (text.dropWhile isBlank) := by
    rw [all]
    simp [next, blank]
  refine ⟨_, _, head, ?_⟩
  cases text with
  | nil => exact .inl rfl
  | cons d text =>
    cases same : isBlank d with
    | false => exact .inl (by simp [same])
    | true =>
      refine .inr ⟨d :: text.takeWhile isBlank, ?_⟩
      rw [all]
      simp [next, same]

theorem all_word (w : Spelling) {text : List Char} (parted : ∀ c ∈ text.head?, isBlank c = true) :
    ∃ first rest, first :: rest = w.text ∧ all (w.text ++ text) = .word first rest :: all text := by
  obtain ⟨first, rest, spelled⟩ := List.exists_cons_of_ne_nil w.text_ne_nil
  have apart (c : Char) (member : c ∈ first :: rest) :=
    apart_of_isAlphanum (w.isAlphanum_of_mem (spelled ▸ member))
  obtain ⟨noBlank, noBracket, noComment, _⟩ := apart first List.mem_cons_self
  have solid : ∀ c ∈ rest, (!isBlank c) = true := by
    intro c member
    rw [(apart c (List.mem_cons_of_mem first member)).1]
    rfl
  have stops : text.takeWhile (!isBlank ·) = [] ∧ text.dropWhile (!isBlank ·) = text := by
    cases text with
    | nil => exact ⟨rfl, rfl⟩
    | cons c text => simp [parted c rfl]
  refine ⟨first, rest, spelled.symm, ?_⟩
  rw [spelled, List.cons_append, all]
  simp [next, noBlank, noBracket, noComment, List.takeWhile_append_of_pos solid, List.dropWhile_append_of_pos solid, stops]

theorem spells_all {text : List Char} {bytes : List UInt8} (spelled : Spelled text bytes) :
    ∃ chunks, List.Forall₂ Spells (all text) chunks ∧ chunks.flatten = bytes := by
  induction spelled with
  | done => exact ⟨[], by simp [all], rfl⟩
  | @blank c text bytes blank later ih =>
    obtain ⟨chunks, spells, rfl⟩ := ih
    obtain ⟨gap, rest, whole, same | ⟨gap', same⟩⟩ := all_blank blank text
    · rw [same] at spells
      exact ⟨[] :: chunks, whole ▸ .cons rfl spells, rfl⟩
    · rw [same] at spells
      cases spells with
      | cons first others => exact ⟨_, whole ▸ .cons first others, rfl⟩
  | word w parted later ih =>
    obtain ⟨chunks, spells, rfl⟩ := ih
    obtain ⟨first, rest, word, whole⟩ := all_word w parted
    exact ⟨w.bytes :: chunks, whole ▸ .cons ⟨w, word, rfl⟩ spells, rfl⟩

end Lexeme

-- The bytes of a token that is about nothing but them.
def TokenKind.fixed? : TokenKind → Option (List UInt8)
  | .blank => some []
  | .opcode value => (byteOf value).toOption
  | .rawHex value width => (width.bytesOf value).toOption
  | _ => none

abbrev Token.Fixed (t : Token) (data : List UInt8) : Prop := t.kind.fixed? = some data

theorem Spelling.fixed (w : Spelling) : w.kind.fixed? = some w.bytes := by
  have byte (b : UInt8) : byteOf b.toNat = .ok [b] := by
    have small := b.toNat_lt
    rw [byteOf, if_pos (by omega), Int.toNat_natCast, UInt8.ofNat_toNat]
  cases w with
  | byte b =>
    change (byteOf b.toNat).toOption = some [b]
    rw [byte]
    rfl
  | short high low =>
    have small := low.toNat_lt
    have fits := value_lt high low
    have parts : value high low / 0x100 = high.toNat ∧ value high low % 0x100 = low.toNat := by
      unfold value
      omega
    change (shortOf (value high low)).toOption = some [high, low]
    rw [shortOf, if_pos (by omega), Int.toNat_natCast, parts.1, parts.2, UInt8.ofNat_toNat, UInt8.ofNat_toNat]
    rfl
  | instruction mnemonic b known =>
    change (byteOf b.toNat).toOption = some [b]
    rw [byte]
    rfl

theorem kind_ne_of_fixed {tokens : List Token} {chunks : List (List UInt8)} (fixed : List.Forall₂ Token.Fixed tokens chunks)
    {kind : TokenKind} (absent : kind.fixed? = none) : ∀ t ∈ tokens, t.kind ≠ kind := by
  induction fixed with
  | nil => simp
  | cons first others ih =>
    refine List.forall_mem_cons.mpr ⟨?_, ih⟩
    rintro rfl
    rw [Token.Fixed, absent] at first
    cases first

namespace Reader

theorem step_spelled (r : Reader) {lexeme : Lexeme} {data : List UInt8} (spells : lexeme.Spells data) :
    ∃ t line column, t.Fixed data ∧
      r.step lexeme = .ok { r with latest := r.latest.push t, nextId := r.nextId + 1, line, column } := by
  have taken : ∃ kind, TokenKind.fixed? kind = some data ∧ r.take lexeme = r.push lexeme.text kind := by
    cases lexeme with
    | blank text =>
      cases spells
      exact ⟨.blank, rfl, rfl⟩
    | comment text closed => exact spells.elim
    | bracket c => exact spells.elim
    | word first rest =>
      obtain ⟨w, word, rfl⟩ := spells
      exact ⟨w.kind, w.fixed, w.word_eq word r⟩
  obtain ⟨kind, fixed, took⟩ := taken
  obtain ⟨line, column, moved⟩ := foldl_advance lexeme.text
    { r with latest := r.latest.push (r.token lexeme.text kind), nextId := r.nextId + 1 }
  refine ⟨r.token lexeme.text kind, line, column, fixed, ?_⟩
  rw [step, took]
  exact congrArg Except.ok moved

theorem each_spelled (r : Reader) {lexemes : List Lexeme} {chunks : List (List UInt8)}
    (spells : List.Forall₂ Lexeme.Spells lexemes chunks) :
    ∃ tokens nextId line column, List.Forall₂ Token.Fixed tokens chunks ∧
      Run.each step r lexemes = .ok { r with latest := r.latest ++ tokens.toArray, nextId, line, column } := by
  induction spells generalizing r with
  | nil => exact ⟨[], r.nextId, r.line, r.column, .nil, by simp⟩
  | cons first others ih =>
    obtain ⟨t, line, column, fixed, stepped⟩ := step_spelled r first
    obtain ⟨tokens, nextId, line', column', later, ran⟩ := ih
      { r with latest := r.latest.push t, nextId := r.nextId + 1, line, column }
    refine ⟨t :: tokens, nextId, line', column', .cons fixed later, ?_⟩
    rw [each_cons, stepped, andThen_ok, ran]
    simp

end Reader

namespace Expander

variable {ctx : Context} {e : Expander} {t : Token}

theorem read_spelled (settings : Settings) {source : List Char} {bytes : List UInt8} (spelled : Spelled source bytes)
    (file : String) (e : Expander) : ∃ nextId program chunks, List.Forall₂ Token.Fixed program chunks ∧
      chunks.flatten = bytes ∧ e.read settings source file = .ok { e with nextId, program } := by
  obtain ⟨chunks, spells, whole⟩ := Lexeme.spells_all spelled
  obtain ⟨tokens, nextId, line, column, fixed, ran⟩ := Reader.each_spelled (e.reader settings source file) spells
  refine ⟨nextId, tokens, chunks, fixed, whole, ?_⟩
  have finished : (e.reader settings source file).run =
      .ok { e.reader settings source file with latest := tokens.toArray, nextId, line, column } := by
    rw [Reader.run, show (e.reader settings source file).source = source from rfl, ran, andThen_ok]
    simp [Reader.finish, reader]
  rw [read_eq, finished]
  rfl

-- Nothing in such a program waits for an expansion.
theorem stable_of_fixed {chunks : List (List UInt8)} (fixed : List.Forall₂ Token.Fixed e.program chunks) : Stable e := by
  refine ⟨⟨?_, ?_, ?_⟩, ?_⟩
  · exact fun t member name => kind_ne_of_fixed fixed rfl t member
  · exact fun t member name => kind_ne_of_fixed fixed rfl t member
  · intro t member
    unfold invoked?
    split
    · rename_i r kind
      exact absurd kind (kind_ne_of_fixed fixed rfl t member)
    · rfl
  · exact fun t member name kind => absurd kind (kind_ne_of_fixed fixed rfl t member)

theorem processSource_spelled (ctx : Context) {source : List Char} {bytes : List UInt8} (spelled : Spelled source bytes)
    (file : String) (passes : 0 < ctx.settings.maxPasses) (journal : Journal) :
    ∃ after chunks, processSource ctx source file { journal } = .ok after ∧ after.symbols = {} ∧
      after.journal = .stable 1 0 :: journal ∧ List.Forall₂ Token.Fixed after.program chunks ∧ chunks.flatten = bytes := by
  obtain ⟨nextId, program, chunks, fixed, whole, read⟩ := read_spelled ctx.settings spelled file { journal }
  obtain ⟨fewer, limit⟩ : ∃ fewer, ctx.settings.maxPasses.toNat = fewer + 1 := ⟨ctx.settings.maxPasses.toNat - 1, by omega⟩
  refine ⟨{ journal := .stable 1 0 :: journal, nextId, stats := { passes := 1 }, program }, chunks, ?_, rfl, rfl, fixed,
    whole⟩
  rw [processSource, read, andThen_ok, process, expand_eq, limit]
  exact settle_stable (stable_of_fixed fixed) fewer

end Expander

-- Bytes one after another from a position on.
inductive Record.Tiled : Int → List Record → List UInt8 → Prop where
  | done (position : Int) : Tiled position [] []
  | next (position : Int) (data : List UInt8) (token : Option Token) {records : List Record} {bytes : List UInt8}
      (later : Tiled (position + data.length) records bytes) :
      Tiled position (.bytes position data token :: records) (data ++ bytes)

namespace Layout

theorem step_fixed (l : Layout) {t : Token} {data : List UInt8} (fixed : t.Fixed data) :
    l.step t = .ok l ∧ data = [] ∨ l.step t = .ok (l.emit data t) := by
  have number {value : Int} {width : Width} (fits : (width.bytesOf value).toOption = some data) :
      l.emitNumber value width t = .ok (l.emit data t) := by
    rw [emitNumber, eq_ok_of_toOption fits]
  unfold Token.Fixed at fixed
  cases kind : t.kind <;> rw [kind] at fixed
  case blank =>
    cases fixed
    exact .inl ⟨by rw [step, kind], rfl⟩
  case opcode value => exact .inr (by rw [step, kind]; exact number fixed)
  case rawHex value width => exact .inr (by rw [step, kind]; exact number fixed)
  all_goals cases fixed

theorem each_fixed (l : Layout) {tokens : List Token} {chunks : List (List UInt8)}
    (fixed : List.Forall₂ Token.Fixed tokens chunks) :
    ∃ records, Record.Tiled l.output records chunks.flatten ∧ Run.each step l tokens =
      .ok { l with records := l.records ++ records, output := l.output + chunks.flatten.length } := by
  induction fixed generalizing l with
  | nil => exact ⟨[], .done l.output, by simp⟩
  | @cons t data tokens chunks first others ih =>
    rw [each_cons]
    rcases step_fixed l first with ⟨stepped, rfl⟩ | stepped
    · rw [stepped]
      exact ih l
    · obtain ⟨records, tiled, ran⟩ := ih (l.emit data t)
      refine ⟨.bytes l.output data (some t) :: records, .next l.output data (some t) tiled, ?_⟩
      rw [stepped, andThen_ok, ran]
      simp [emit, Int.add_assoc]

theorem linearize_fixed (l : Layout) {tokens : List Token} {chunks : List (List UInt8)}
    (fixed : List.Forall₂ Token.Fixed tokens chunks) :
    ∃ laid, l.linearize tokens = .ok laid ∧ laid.symbols = l.symbols.clearAddresses ∧
      Record.Tiled l.loadBase laid.records.toList chunks.flatten := by
  obtain ⟨records, tiled, ran⟩ := each_fixed l.restart fixed
  refine ⟨_, ran, rfl, ?_⟩
  simpa [restart] using tiled

-- No record waits for a label.
theorem resolveRecords_tiled (l : Layout) {position : Int} {records : List Record} {bytes : List UInt8}
    (tiled : Record.Tiled position records bytes) :
    l.resolveRecords records = .ok { l with records := l.records ++ records } := by
  induction tiled generalizing l with
  | done position => simp [resolveRecords]
  | next position data token later ih =>
    have kept : l.resolveRecord (.bytes position data token) =
        .ok { l with records := l.records.push (.bytes position data token) } := rfl
    rw [resolveRecords, kept]
    dsimp only
    rw [ih]
    simp

theorem resolve_tiled (l : Layout) {position : Int} {bytes : List UInt8}
    (tiled : Record.Tiled position l.records.toList bytes) : l.resolve = .ok l := by
  rw [resolve, resolveRecords_tiled _ tiled]
  simp

end Layout

namespace Emission

theorem each_tiled (base : Int) {position : Int} {records : List Record} {bytes : List UInt8}
    (tiled : Record.Tiled position records bytes) {e : Emission} (here : position = base + e.sink.cursor)
    (atEnd : e.sink.cursor = e.sink.content.size) :
    ∃ last, Run.each (step base) e records = .ok last ∧
      last.sink.content.toList = e.sink.content.toList ++ bytes := by
  induction tiled generalizing e with
  | done position => exact ⟨e, rfl, by simp⟩
  | next position data token later ih =>
    cases data with
    | nil =>
      have skipped : step base e (.bytes position [] token) = .ok e := rfl
      rw [each_cons, skipped]
      exact ih (by simpa using here) atEnd
    | cons b data =>
      have offset : position - base = e.sink.cursor := by omega
      have written : step base e (.bytes position (b :: data) token) =
          .ok ⟨e.sink.write (b :: data), e.written + (b :: data).length⟩ := by
        simp only [step, Record.data, Record.position, offset]
        rw [if_neg (by omega), if_neg (by omega), Int.toNat_natCast]
        rfl
      have moved := e.sink.cursor_write (b :: data)
      have grown := e.sink.size_write (b :: data) (List.cons_ne_nil b data)
      have there : position + (b :: data).length = base + (e.sink.write (b :: data)).cursor := by
        rw [moved, here, Int.natCast_add, Int.add_assoc]
      have stillAtEnd : (e.sink.write (b :: data)).cursor = (e.sink.write (b :: data)).content.size := by omega
      obtain ⟨last, ran, content⟩ := ih (e := ⟨e.sink.write (b :: data), e.written + (b :: data).length⟩)
        there stillAtEnd
      refine ⟨last, ?_, ?_⟩
      · rw [each_cons, written]
        exact ran
      · rw [content, e.sink.write_at_end atEnd, List.append_assoc]

end Emission

namespace Assembler

theorem build_ok (a : Assembler) {laid resolved : Layout} {emission : Emission}
    (linearized : Layout.linearize { loadBase := a.settings.loadBase, symbols := a.symbols } a.tokens = .ok laid)
    (completed : laid.resolve = .ok resolved)
    (emitted : ({} : Sink).emit a.settings.loadBase resolved.records.toList = .ok emission) :
    ∃ b, a.build = .ok b ∧ b.code = emission.sink.content ∧ b.symbols = resolved.symbols ∧ b.warnings = a.warnings := by
  unfold build
  dsimp only
  rw [linearized]
  dsimp only
  rw [completed]
  dsimp only
  unfold emit
  dsimp only [draft, note]
  rw [emitted]
  refine ⟨_, rfl, rfl, rfl, ?_⟩
  simp [warnings, Journal.warnings, Event.warning?]

theorem assembleSource_fixed (a : Assembler) (passes : 0 < a.settings.maxPasses) (disk : Disk) {text : List Char}
    {bytes : List UInt8} (spelled : Spelled text bytes) (file : String) :
    ∃ b, a.assembleSource disk text file = .ok b ∧ b.code = bytes.toArray ∧ b.symbols = {} ∧ b.warnings = [] := by
  obtain ⟨e, chunks, expanded, undeclared, journal, fixed, rfl⟩ :=
    Expander.processSource_spelled ⟨a.settings, disk⟩ spelled file passes [.assembling file]
  obtain ⟨laid, linearized, symbols, tiled⟩ := Layout.linearize_fixed
    { loadBase := a.settings.loadBase, symbols := e.symbols } fixed
  obtain ⟨emission, emitted, content⟩ := Emission.each_tiled a.settings.loadBase tiled (e := ⟨{}, 0⟩)
    (Int.add_zero _).symm rfl
  obtain ⟨b, built, code, labels, warnings⟩ :=
    build_ok (a.handed file e) linearized (Layout.resolve_tiled laid tiled) emitted
  refine ⟨b, ?_, ?_, ?_, ?_⟩
  · rw [assembleSource, assembleWith_ok a expanded]
    exact built
  · rw [code]
    exact Array.toList_inj.mp content
  · rw [labels, symbols, undeclared]
    rfl
  · rw [warnings]
    change Journal.warnings (_ :: e.journal) = []
    rw [journal]
    rfl

end Assembler

-- Bytes that are spelled out are assembled back, by the default settings and with nothing declared and nothing to warn
-- of. The mnemonics among the words can be the canonical ones of their bytes, or have their flags in any other order.
theorem assemble_spelled (disk : Disk) (file : String) :
    (∀ text bytes, Spelled text bytes → assemble disk text file = .ok bytes.toArray ∧
      ∃ b, ({} : Assembler).assembleSource disk text file = .ok b ∧ b.code = bytes.toArray ∧ b.symbols = {} ∧
        b.warnings = []) ∧
    (∀ b, Opcode.ofMnemonic? (Opcode.mnemonic b) = some b) ∧
    ∀ m m' : String, m.toList.take 3 = m'.toList.take 3 → (m.toList.drop 3).Perm (m'.toList.drop 3) →
      Opcode.ofMnemonic? m = Opcode.ofMnemonic? m' := by
  refine ⟨?_, Opcode.ofMnemonic?_mnemonic, fun m m' => Opcode.ofMnemonic?_perm⟩
  intro text bytes spelled
  obtain ⟨b, ran, code, symbols, warnings⟩ := ({} : Assembler).assembleSource_fixed (by decide) disk spelled file
  refine ⟨?_, b, ran, code, symbols, warnings⟩
  rw [assemble, ran, ← code]

-- Each kind of word and of blank, and an instruction in a spelling that is not its canonical one.
theorem assemble_spelled_words :
    let text := "\tLDAk2r 0a\r\n80ff LITr2 ".toList
    let bytes : List UInt8 := [0xf4, 0x0a, 0x80, 0xff, 0xe0]
    Spelled text bytes ∧ assemble ⟨[], []⟩ text "<input>" = .ok bytes.toArray ∧
      Opcode.ofMnemonic? "LDAk2r" = Opcode.ofMnemonic? (Opcode.mnemonic 0xf4) := by
  intro text bytes
  obtain ⟨back, canonical, reordered⟩ := assemble_spelled ⟨[], []⟩ "<input>"
  have load : Opcode.ofMnemonic? "LDAk2r" = some 0xf4 := by decide +kernel
  have literal : Opcode.ofMnemonic? "LITr2" = some 0xe0 := by decide +kernel
  have before (c : Char) (rest : List Char) (blank : isBlank c = true) : ∀ d ∈ (c :: rest).head?, isBlank d = true := by
    rintro d ⟨⟩
    exact blank
  have ending : Spelled ((Spelling.instruction "LITr2" 0xe0 literal).text ++ [' ']) [0xe0] :=
    .word _ (before ' ' [] rfl) (.blank rfl .done)
  have middle := Spelled.word (.byte 0x0a) (before '\r' _ rfl)
    (.blank rfl (.blank (c := '\n') rfl (.word (.short 0x80 0xff) (before ' ' _ rfl) (.blank rfl ending))))
  have whole := Spelled.blank (c := '\t') rfl
    (.word (.instruction "LDAk2r" 0xf4 load) (before ' ' _ rfl) (.blank rfl middle))
  have spelled : Spelled text bytes := by
    convert whole using 1
    · simp only [Spelling.text]
      decide +kernel
    · rfl
  refine ⟨spelled, (back text bytes spelled).1, ?_⟩
  exact reordered "LDAk2r" (Opcode.mnemonic 0xf4) (by decide +kernel) (by decide +kernel)

end RuneAsm
