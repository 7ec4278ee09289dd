import Mathlib
import RuneAsm.Proofs.Grouping
import RuneAsm.Proofs.Respacing.Shapes
import RuneAsm.Proofs.SymbolFile
import RuneAsm.Proofs.Untouched

namespace RuneAsm

open Run

-- The listing against the image. Its lines of code stand for the tokens that made records, one for one and in order,
-- and each shows where the token stands in the image and what it put there. No word holds a newline, so the lines are
-- read back from the text as they were put into it.

-- A token that is no spacing is a word or a bracket.
theorem Expander.plain_endures (ctx : Context) : Endures ctx fun t => t.kind.isSpacing = false → Plain t.text where
  read {source file e lexed} ran t member solid := by
    rw [read_eq] at ran
    split at ran
    · rename_i r read
      cases ran
      have marks := ((Reader.run_scans (e.reader ctx.settings source file)).ok read).marks
      have marked : t.mark ∈ r.marks := List.mem_map_of_mem member
      rw [marks] at marked
      obtain ⟨lexeme, inside, text, parent, kind⟩ :=
        Reader.mem_stamps (by simpa [Reader.marks, reader, Reader.tokens] using marked)
      have proper := Lexeme.all_proper source lexeme inside
      rw [isSpacing_of_said kind.symm] at solid
      rw [show t.text = String.ofList lexeme.text from text, plain_ofList]
      exact Lexeme.not_blank_of_solid proper solid
    · cases ran
  captured kind plain _ := plain (by rw [kind]; rfl)
  copied _ _ f plain solid := plain (by rwa [mapLabel_isSpacing] at solid)

def Unbroken (text : String) : Prop := '\n' ∉ text.toList

namespace Unbroken

variable {text more : String}

theorem append (first : Unbroken text) (second : Unbroken more) : Unbroken (text ++ more) := by
  unfold Unbroken at *
  simp [first, second]

theorem intercalate {pieces : List String} (separator : Unbroken text) (unbroken : ∀ piece ∈ pieces, Unbroken piece) :
    Unbroken (text.intercalate pieces) := by
  induction pieces with
  | nil => simp [Unbroken]
  | cons first rest ih =>
    have here := unbroken first List.mem_cons_self
    have later := ih fun piece member => unbroken piece (List.mem_cons_of_mem _ member)
    cases rest with
    | nil => simpa using here
    | cons second rest =>
      rw [String.intercalate_cons_cons]
      exact (here.append separator).append later

theorem of_plain (plain : Plain text) : Unbroken text := fun member => absurd (plain '\n' member) (by decide)

theorem hexNumeral (upper : Bool) (width : Nat) (z : Int) : Unbroken (Text.hexNumeral upper width z) :=
  fun member => absurd (Text.not_blank_of_mem_hexNumeral member) (by decide)

theorem padRight (width : Nat) (unbroken : Unbroken text) : Unbroken (Text.padRight width text) :=
  unbroken.append (by simp [Unbroken])

theorem padLeft (width : Nat) (unbroken : Unbroken text) : Unbroken (Text.padLeft width text) :=
  append (by simp [Unbroken]) unbroken

theorem integer (z : Int) : Unbroken (toString z) := by
  cases z with
  | ofNat n => simp [Unbroken, toString, Int.repr, not_mem_digits]
  | negSucc n => simp [Unbroken, toString, Int.repr, not_mem_digits]

end Unbroken

namespace Listing

variable {g : Group} {t : Token} {records : List Record} {groups : List Group} {symbols : SymbolTable}

theorem unbroken_code (data : List UInt8) : Unbroken (code data) := by
  apply Unbroken.append
  · apply Unbroken.intercalate
    · simp [Unbroken]
    · intro piece member
      obtain ⟨b, _, rfl⟩ := List.mem_map.mp member
      exact .hexNumeral false 2 b.toNat
  · split <;> simp [Unbroken]

theorem line_eq (token : g.token = some t) : g.line =
    Text.address g.position ++ "  " ++ Text.padRight 12 (code g.data) ++ "  " ++
      Text.padLeft 4 (toString t.location.line) ++ "  " ++ t.text := by
  simp only [Group.line, token]
  rfl

theorem unbroken_line (token : g.token = some t) (plain : Plain t.text) : Unbroken g.line := by
  have gap : Unbroken "  " := by simp [Unbroken]
  rw [line_eq token]
  have place : Unbroken (Text.address g.position ++ "  ") := (Unbroken.hexNumeral false 4 g.position).append gap
  have bytes := ((unbroken_code g.data).padRight 12).append gap
  have number := ((Unbroken.integer t.location.line).padLeft 4).append gap
  have source := Unbroken.of_plain plain
  have whole := place.append (bytes.append (number.append source))
  simpa only [String.append_assoc] using whole

theorem unbroken_symbolLine {entry : String × Int} (plain : Plain entry.1) : Unbroken (symbolLine entry) := by
  have equals : Unbroken " = $" := by simp [Unbroken]
  have value : Unbroken (Text.address entry.2) := .hexNumeral false 4 entry.2
  have whole := ((Unbroken.of_plain plain).padRight 20).append (equals.append value)
  simpa only [symbolLine, toString, String.append_assoc] using whole

theorem unbroken_frame : ∀ row ∈ heading ++ ["", "Symbol Table", rule '-' 30], '\n' ∉ row.toList := by decide

theorem render_lines (grouped : Listing.groups records = .ok groups) (rows : ∀ g ∈ groups, Unbroken g.line)
    (plain : ∀ entry ∈ symbols.addresses, Plain entry.1) : ∃ text, render records symbols = .ok text ∧
      Text.lines text.toList = (heading ++ groups.map Group.line ++ ["", "Symbol Table", rule '-' 30] ++
        (sorted symbols.addresses).map symbolLine).map String.toList := by
  refine ⟨_, by rw [render, grouped], ?_⟩
  rw [String.toList_intercalate]
  refine Text.lines_intercalate ?_ (by simp [heading])
  intro row member
  obtain ⟨text, inside, rfl⟩ := List.mem_map.mp member
  simp only [List.mem_append, List.mem_map] at inside
  rcases inside with ((head | ⟨g, made, rfl⟩) | foot) | ⟨entry, there, rfl⟩
  · exact unbroken_frame text (List.mem_append_left _ head)
  · exact rows g made
  · exact unbroken_frame text (List.mem_append_right _ foot)
  · exact unbroken_symbolLine (plain entry ((sorted_perm _).subset there))

end Listing

namespace Assembler

variable {a b : Assembler} {disk : Disk} {input : Input} {t : Token}

theorem build_drafted (ran : a.build = .ok b) : b.drafted = some b.records := by
  unfold build at ran
  dsimp only at ran
  split at ran
  · cases ran
  · split at ran
    · cases ran
    · unfold emit at ran
      split at ran
      · cases ran
      · cases ran
        rfl

-- What the listing of a program is made from.
structure Listable (b : Assembler) : Prop where
  blocks : Blocks ⟨b.settings.loadBase, b.settings.loadBase⟩ b.tokens b.records
  serials : (b.tokens.map (·.id)).Nodup
  known : ∀ r ∈ b.records, ∃ data, r.data = .ok data
  words : ∀ t ∈ b.tokens, t.kind.isSpacing = false → Plain t.text
  written : ∃ emission, ({} : Sink).emit b.settings.loadBase b.records = .ok emission ∧ b.code = emission.sink.content
  drafted : b.drafted = some b.records

theorem listable_of_assembleInput (ran : a.assembleInput disk input = .ok b) : b.Listable := by
  rw [assembleInput_eq] at ran
  obtain ⟨settings, e, expanded, tokens, complete⟩ := (assembleWith_leaves a _ _).ok ran
  rw [assembleWith_ok a expanded] at ran
  obtain ⟨holds, orderly, settled⟩ := Input.expand_prepared expanded
  obtain ⟨last, generated, records, _⟩ := complete.laid
  have words := (Expander.plain_endures ⟨a.settings, disk⟩).input expanded
  have serials := holds.serials
  have resolved := (Layout.generate_ends { loadBase := b.settings.loadBase, symbols := e.symbols } orderly settled.spliced
    holds.labels).ok (tokens ▸ generated)
  have blocks := Layout.generate_blocks (settled.prepared holds orderly) (tokens ▸ generated)
  have known := resolved.data
  rw [← records] at blocks known
  rw [← tokens] at blocks words serials
  exact ⟨blocks, serials, known, words, complete.written, build_drafted ran⟩

-- What a line of code says of a token: the output position to which the tokens before it lead, the first of its bytes as
-- the image holds them, with a mark when there are more than four, the line it was written on and its text.
def Lists (b : Assembler) (t : Token) (row : String) : Prop :=
  ∃ front back address offset n, b.tokens = front ++ t :: back ∧
    address = positionAfter TokenKind.output? b.settings.loadBase front ∧
    offset = (address - b.settings.loadBase).toNat ∧ n = ((recordsOf b.records t).map Record.size).sum ∧
    (n ≠ 0 → b.settings.loadBase ≤ address ∧ offset + n ≤ b.code.size) ∧
    row = Text.address address ++ "  " ++ Text.padRight 12 (" ".intercalate
        (((b.code.toList.drop offset).take (min 4 n)).map Text.byteNumeral) ++ if 4 < n then " .." else "") ++ "  " ++
      Text.padLeft 4 (toString t.location.line) ++ "  " ++ t.text

theorem Listable.line {g : Listing.Group} (listable : b.Listable)
    (shows : Listing.Shows ⟨b.settings.loadBase, b.settings.loadBase⟩ b.tokens b.records t g) : b.Lists t g.line := by
  obtain ⟨emission, written, code⟩ := listable.written
  obtain ⟨front, back, parts, position⟩ := shows.position
  rw [Cursor.after_eq] at position
  have inside : ∀ r ∈ recordsOf b.records t, r ∈ b.records := fun r member => List.mem_of_mem_filter member
  have knownToo : ∀ r ∈ recordsOf b.records t, ∃ data, r.data = .ok data := fun r member =>
    listable.known r (inside r member)
  obtain ⟨slice, bounds⟩ := shows.abut.slice (Emission.each_writes written) inside knownToo
  have length := flatMap_held_length knownToo
  rw [← shows.data] at slice length
  rw [← code] at slice bounds
  refine ⟨front, back, g.position, _, _, parts, position, rfl, rfl, bounds, ?_⟩
  rw [Listing.line_eq shows.token, Listing.code, length, slice, List.take_take]

-- Every line of code is found in the text as it was written, and stands for one of the tokens that made a record, in the
-- order of the program.
theorem listing_agrees_with_image (ran : a.assembleInput disk input = .ok b) :
    ∃ text rows, b.listing = .ok text ∧
      Text.lines text.toList = (Listing.heading ++ rows ++ ["", "Symbol Table", Listing.rule '-' 30] ++
        (Listing.sorted b.namedAddresses).map Listing.symbolLine).map String.toList ∧
      List.Forall₂ b.Lists (b.tokens.filter (recordsOf b.records · ≠ [])) rows := by
  have named := (named_of_assembleInput ran).2
  have listable := listable_of_assembleInput ran
  obtain ⟨groups, grouped, shown⟩ := Listing.groups_blocks listable.blocks listable.serials listable.known
  have rows : ∀ g ∈ groups, Unbroken g.line := by
    intro g member
    obtain ⟨t, made, shows⟩ := agree_mem shown member
    obtain ⟨inside, some⟩ := List.mem_filter.mp made
    have solid := listable.blocks.solid (by simpa using some)
    exact Listing.unbroken_line shows.token (listable.words t inside solid)
  obtain ⟨text, rendered, lines⟩ := Listing.render_lines grouped rows fun entry member => (named entry member).1
  refine ⟨text, groups.map Listing.Group.line, ?_, lines, ?_⟩
  · rw [listing, listable.drafted]
    exact rendered
  · rw [List.forall₂_map_right_iff]
    exact shown.imp fun t g shows => listable.line shows

-- A text that is cut off, a gap in the image, a text without bytes and a brace whose label has an address.
theorem listing_agrees_with_image_cut :
    ∃ b, ({} : Assembler).assembleInput ⟨[], []⟩
        (.text "@main \"hello $2 \" ( gap ) ;main \x7b #0102 \x7d".toList "<input>") = .ok b ∧
      (b.tokens.filter (recordsOf b.records · ≠ [])).map (·.text) = ["\"hello", "\"", ";main", "\x7b", "#0102"] ∧
      b.code.toList = [104, 101, 108, 108, 111, 0, 0, 160, 1, 0, 96, 0, 3, 160, 1, 2] ∧
      ∃ text rows, b.listing = .ok text ∧
        Text.lines text.toList = (Listing.heading ++ rows ++ ["", "Symbol Table", Listing.rule '-' 30] ++
          (Listing.sorted b.namedAddresses).map Listing.symbolLine).map String.toList ∧
        List.Forall₂ b.Lists (b.tokens.filter (recordsOf b.records · ≠ [])) rows := by
  have made : (({} : Assembler).assembleInput ⟨[], []⟩
      (.text "@main \"hello $2 \" ( gap ) ;main \x7b #0102 \x7d".toList "<input>")).toOption.map (fun b =>
        ((b.tokens.filter (recordsOf b.records · ≠ [])).map (·.text), b.code.toList)) =
      some (["\"hello", "\"", ";main", "\x7b", "#0102"],
        [104, 101, 108, 108, 111, 0, 0, 160, 1, 0, 96, 0, 3, 160, 1, 2]) := by decide +kernel
  obtain ⟨b, ran, facts⟩ := Option.map_eq_some_iff.mp made
  have assembled := eq_ok_of_toOption ran
  obtain ⟨texts, code⟩ := Prod.mk.inj facts
  exact ⟨b, assembled, texts, code, listing_agrees_with_image assembled⟩

end Assembler

end RuneAsm
