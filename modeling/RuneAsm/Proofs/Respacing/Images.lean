import Mathlib
import RuneAsm.Assembler
import RuneAsm.Proofs.Laying
import RuneAsm.Proofs.Respacing.Expansion
import RuneAsm.Proofs.Respacing.Layout
import RuneAsm.Proofs.Respacing.Words

namespace RuneAsm

open Run

-- Spacing does not show in the image. Texts with the same words give the same bytes and the same addresses of named
-- labels, or fail with diagnostics of the same family.

variable {σ : String → String} {source source' : List Char} {file : String}

namespace Expander

variable {e e' lexed lexed' : Expander} {settings : Settings}

theorem read_changes {journal : Journal} (read : ({ journal } : Expander).read settings source file = .ok e) :
    ∃ symbols journal nextId program, e = { symbols, journal, nextId, program } := by
  rw [read_eq] at read
  split at read
  · cases read
    exact ⟨_, _, _, _, rfl⟩
  · cases read

theorem noInclusion_of_twins {tokens tokens' : List Token} (twins : Reader.Twins σ tokens tokens')
    (noInclusion : ∀ t ∈ tokens, ∀ name, t.kind ≠ .inclusion name) :
    ∀ t' ∈ tokens', ∀ name, t'.kind ≠ .inclusion name := by
  intro t' member name kind'
  have solid : t' ∈ unspaced tokens' := List.mem_filter.mpr ⟨member, by simp [kind', TokenKind.isSpacing]⟩
  obtain ⟨t, there, twin⟩ := agree_mem twins solid
  exact noInclusion t (List.mem_of_mem_filter there) name (mapLabel_inclusion.mp (twin.kind.symm.trans kind'))

theorem matching_of_read {journal : Journal} (read : ({ journal } : Expander).read settings source file = .ok e)
    (read' : ({ journal } : Expander).read settings source' file = .ok e')
    (symbols : SymbolTable.Like σ e.symbols e'.symbols) (twins : Reader.Twins σ e.program e'.program)
    (noInclusion : ∀ t ∈ e.program, ∀ name, t.kind ≠ .inclusion name) : Matching σ e e' := by
  obtain ⟨holds, orderly, _⟩ := (read_holds settings source file (holds_fresh journal)).ok read
  obtain ⟨holds', orderly', _⟩ := (read_holds settings source' file (holds_fresh journal)).ok read'
  obtain ⟨_, _, _, _, rfl⟩ := read_changes read
  obtain ⟨_, _, _, _, rfl⟩ := read_changes read'
  refine ⟨⟨symbols, .nil, rfl, rfl⟩, ?_, holds, holds', orderly, orderly'⟩
  have both := (List.forall₂_and_left _ _).mpr ⟨fun t member => noInclusion t (List.mem_of_mem_filter member), twins⟩
  refine both.imp ?_
  rintro t t' ⟨free, twin⟩
  refine ⟨twin.kind, free, ?_⟩
  intro name kind
  have uncaptured := twin.uncaptured
  rw [kind] at uncaptured
  cases uncaptured

-- The reading that shows the words of a text is told apart from the one that is expanded by the journal alone.
theorem processSource_alike (ctx : Context) (journal : Journal)
    (read : ({} : Expander).read ctx.settings source file = .ok lexed)
    (read' : ({} : Expander).read ctx.settings source' file = .ok lexed')
    (noInclusion : ∀ t ∈ lexed.program, ∀ name, t.kind ≠ .inclusion name)
    (same : Reader.words lexed.program = Reader.words lexed'.program) :
    ∃ σ, Renaming σ ∧ Alike (Matching σ) (processSource ctx source file { journal })
      (processSource ctx source' file { journal }) := by
  obtain ⟨words, finished⟩ := read_words read
  obtain ⟨words', finished'⟩ := read_words read'
  have lexemes : (Lexeme.all source).filter (!·.isSpacing) = (Lexeme.all source').filter (!·.isSpacing) := by
    refine Reader.lexemes_eq ?_ ?_ (words.symm.trans (same.trans words'))
    · intro lexeme member
      exact ⟨Lexeme.all_proper source lexeme (List.mem_of_mem_filter member), by simpa using (List.mem_filter.mp member).2⟩
    · intro lexeme member
      exact ⟨Lexeme.all_proper source' lexeme (List.mem_of_mem_filter member), by simpa using (List.mem_filter.mp member).2⟩
  obtain ⟨σ, renames, labels⟩ := Reader.exists_labels file (1, 1) (1, 1) lexemes
  refine ⟨σ, renames, ?_⟩
  obtain ⟨e, ran, _, again⟩ := (read_alike .keep [] journal finished finished rfl (by simp)).ok read
  obtain ⟨e', ran', symbols, twins⟩ := (read_alike renames journal journal finished finished' lexemes labels).ok ran
  have matching := matching_of_read ran ran' symbols twins (noInclusion_of_twins again noInclusion)
  have room : room ctx e' = room ctx e := by
    obtain ⟨_, _, _, _, rfl⟩ := read_changes ran
    obtain ⟨_, _, _, _, rfl⟩ := read_changes ran'
    rfl
  unfold processSource process
  rw [ran, ran', andThen_ok, andThen_ok, room]
  exact expand_alike ctx renames _ matching

end Expander

namespace Assembler

variable {a a' : Assembler}

-- What counts of an assembly: the image and the addresses of the named labels, in their order.
def SameImage (a a' : Assembler) : Prop := a'.code = a.code ∧ a'.namedAddresses = a.namedAddresses

theorem emit_alike (settings : a'.settings = a.settings) (addresses : a'.namedAddresses = a.namedAddresses)
    (records : List.Forall₂ (Record.Like σ) a.records a'.records)
    (known : ∀ record ∈ a.records, ∃ data, record.data = .ok data) : Alike SameImage a.emit a'.emit := by
  unfold emit
  rw [settings]
  rcases (Sink.emit_alike {} a.settings.loadBase records known).cases with
    ⟨e, e', ran, ran', equal⟩ | ⟨stop, stop', ran, ran', kinds⟩
  · rw [ran, ran']
    exact ⟨congrArg (·.sink.content) equal, addresses⟩
  · rw [ran, ran']
    exact kinds

theorem build_alike (renames : Renaming σ) (settings : a'.settings = a.settings)
    (symbols : SymbolTable.Like σ a.symbols a'.symbols) (orderly : Orderly a.tokens)
    (noInclusion : ∀ t ∈ a.tokens, ∀ name, t.kind ≠ .inclusion name) (labels : (closerLabels a.tokens).Nodup)
    (declared : ∀ label ∈ closerLabels a.tokens, label ∈ a.symbols.names)
    (agree : List.Forall₂ (fun t t' : Token => t'.kind = t.kind.mapLabel σ) (unspaced a.tokens) (unspaced a'.tokens)) :
    Alike SameImage a.build a'.build := by
  let l : Layout := { loadBase := a.settings.loadBase, symbols := a.symbols }
  let l' : Layout := { loadBase := a'.settings.loadBase, symbols := a'.symbols }
  have ends := Layout.generate_ends l orderly noInclusion labels
  have tracks := tracks_like renames
  have walk : Alike (Layout.Like σ (SymbolTable.Like σ)) (l.linearize a.tokens) (l'.linearize a'.tokens) :=
    Layout.linearize_alike tracks symbols.clearAddresses (congrArg (·.loadBase) settings)
      (fun l t passed => Layout.step_spacing l t (by simpa using passed)) agree
      (fun t member => ⟨orderly.regular t member, noInclusion t member⟩) declared
  unfold Layout.generate at ends
  unfold build
  dsimp only
  rcases walk.cases with ⟨laid, laid', walked, walked', laidLike⟩ | ⟨stop, stop', walked, walked', kinds⟩
  · rw [walked, andThen_ok] at ends
    rw [show Layout.linearize _ a.tokens = _ from walked, show Layout.linearize _ a'.tokens = _ from walked']
    dsimp only
    rcases (Layout.resolve_alike tracks laidLike).cases with
      ⟨last, last', ran, ran', lastLike⟩ | ⟨stop, stop', ran, ran', kinds⟩
    · rw [ran, ran']
      have known := (ends.ok ran).data
      exact emit_alike settings (lastLike.symbols.addresses renames) lastLike.records known
    · rw [ran, ran']
      exact kinds
  · rw [show Layout.linearize _ a.tokens = _ from walked, show Layout.linearize _ a'.tokens = _ from walked']
    exact kinds

-- Spacing and comments do not show: texts that are read under one file name and have the same words, none of them
-- an inclusion, give the same image and the same addresses, or fail with diagnostics of one family.
theorem assembleSource_respaced (a : Assembler) (disk : Disk) (file : String) (source source' : List Char)
    {lexed lexed' : Expander} (read : ({} : Expander).read a.settings source file = .ok lexed)
    (read' : ({} : Expander).read a.settings source' file = .ok lexed')
    (noInclusion : ∀ t ∈ lexed.program, ∀ name, t.kind ≠ .inclusion name)
    (same : Reader.words lexed.program = Reader.words lexed'.program) :
    Alike SameImage (a.assembleSource disk source file) (a.assembleSource disk source' file) := by
  obtain ⟨σ, renames, alike⟩ :=
    Expander.processSource_alike ⟨a.settings, disk⟩ (a.reset.note (.assembling file)).journal read read' noInclusion same
  unfold assembleSource assembleWith
  dsimp only
  rcases alike.cases with ⟨e, e', ran, ran', matching⟩ | ⟨stop, stop', ran, ran', kinds⟩
  · rw [ran, ran']
    obtain ⟨holds, orderly, settled⟩ := (Expander.processSource_ends _ _ _ (Expander.holds_fresh _)).ok ran
    refine build_alike renames rfl matching.like.symbols orderly settled.spliced holds.labels ?_ ?_
    · exact fun label member => SymbolTable.mem_names_of_anonymous (holds.declared label member)
    · exact matching.program.imp fun _ _ twin => twin.kind
  · rw [ran, ran']
    exact kinds

-- The label of the inline subroutine comes from line 1 in one text and from line 3 in the other.
theorem assembleSource_respaced_lines :
    ∃ b b', ({} : Assembler).assembleSource ⟨[], []⟩ "%m [ ?\x7b #01 \x7d ] @a m m ;a".toList "<input>" = .ok b ∧
      ({} : Assembler).assembleSource ⟨[], []⟩ "%m ( copied )\n[\n ?\x7b #01 \x7d ]\n@a m  m ;a".toList "<input>" = .ok b' ∧
      b.code.size = 13 ∧ b'.code = b.code ∧ b'.namedAddresses = [("a", 256)] := by
  have lexed (source : String) (read : (({} : Expander).read {} source.toList "<input>").toOption.map (fun e =>
      (Reader.words e.program, e.program.all (·.kind.name ≠ "INCLUDE"))) =
        some (["%m", "[", "?\x7b", "#01", "\x7d", "]", "@a", "m", "m", ";a"], true)) :
      ∃ e, ({} : Expander).read {} source.toList "<input>" = .ok e ∧
        Reader.words e.program = ["%m", "[", "?\x7b", "#01", "\x7d", "]", "@a", "m", "m", ";a"] ∧
        ∀ t ∈ e.program, ∀ name, t.kind ≠ .inclusion name := by
    obtain ⟨e, ran, found⟩ := Option.map_eq_some_iff.mp read
    obtain ⟨words, free⟩ := Prod.mk.inj found
    refine ⟨e, eq_ok_of_toOption ran, words, ?_⟩
    intro t member name kind
    have other := List.all_eq_true.mp free t member
    rw [kind] at other
    simp [TokenKind.name] at other
  obtain ⟨e, read, words, noInclusion⟩ := lexed "%m [ ?\x7b #01 \x7d ] @a m m ;a" (by decide +kernel)
  obtain ⟨e', read', words', _⟩ := lexed "%m ( copied )\n[\n ?\x7b #01 \x7d ]\n@a m  m ;a" (by decide +kernel)
  have alike := assembleSource_respaced {} ⟨[], []⟩ "<input>" _ _ read read' noInclusion (words.trans words'.symm)
  have made : (({} : Assembler).assembleSource ⟨[], []⟩ "%m [ ?\x7b #01 \x7d ] @a m m ;a".toList "<input>").toOption.map
      (fun b => (b.code.size, b.namedAddresses)) = some (13, [("a", 256)]) := by decide +kernel
  obtain ⟨b, ran, found⟩ := Option.map_eq_some_iff.mp made
  obtain ⟨size, addresses⟩ := Prod.mk.inj found
  obtain ⟨b', ran', code, same⟩ := alike.ok (eq_ok_of_toOption ran)
  exact ⟨b, b', eq_ok_of_toOption ran, ran', size, code, same.trans addresses⟩

end Assembler

end RuneAsm
