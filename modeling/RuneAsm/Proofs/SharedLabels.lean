import Mathlib
import RuneAsm.Proofs.Carrying
import RuneAsm.Proofs.Declaring
import RuneAsm.Proofs.Renaming

namespace RuneAsm

open Run

-- The labels of all texts that a call reads. The texts share one table, so a name that one of them declares is taken
-- for those that are read after it. Only the label of a closing brace can become free again, when the brace turns out
-- to end the body of a macro and is dropped with it.

-- The labels of a text that is read on its own but for what is known already.
def SourceText.labels (known : List Symbol) (s : SourceText) : List Symbol :=
  declarations s.file (1, 1) none ⟨known⟩ (Lexeme.all s.chars)

-- What one text declares is known to the next.
def unitLabels (sources : List SourceText) : List Symbol :=
  sources.foldl (fun known s => known ++ s.labels known) []

theorem unitLabels_snoc (sources : List SourceText) (s : SourceText) :
    unitLabels (sources ++ [s]) = unitLabels sources ++ s.labels (unitLabels sources) := by
  simp [unitLabels]

variable {known known' : String → Bool} {table table' : SymbolTable} {location : Location} {parent : Option String}
variable {lexeme : Lexeme} {lexemes : List Lexeme} {file : String} {place : Nat × Nat} {name : String}

-- Only names of parents are looked up, and those are parts of words.
theorem Lexeme.labels_congr (proper : lexeme.Proper) (agree : ∀ name, Plain name → known name = known' name) :
    lexeme.labels location parent known = lexeme.labels location parent known' := by
  cases lexeme with
  | word first rest =>
    have plain : Plain (String.ofList rest) :=
      plain_ofList.mpr fun c member => proper.2.2 c (List.mem_cons_of_mem _ member)
    cases above : parentOf (String.ofList rest) with
    | none => simp [labels, above]
    | some parent => simp [labels, above, Option.filter_some, agree parent (plain_parentOf plain above)]
  | _ => rfl

theorem declarations_congr (proper : ∀ lexeme ∈ lexemes, lexeme.Proper)
    (agree : ∀ name, Plain name → table.contains name = table'.contains name) :
    declarations file place parent table lexemes = declarations file place parent table' lexemes := by
  induction lexemes generalizing place parent table table' with
  | nil => rfl
  | cons lexeme rest ih =>
    have first : lexeme.labels ⟨file, place.1, place.2⟩ parent table.contains =
        lexeme.labels ⟨file, place.1, place.2⟩ parent table'.contains :=
      Lexeme.labels_congr (proper lexeme List.mem_cons_self) agree
    simp only [declarations]
    rw [first, ih fun other member => proper other (List.mem_cons_of_mem _ member)]
    intro name plain
    have both := agree name plain
    simp only [SymbolTable.contains, List.any_append] at both ⊢
    rw [both]

theorem SymbolTable.mem_names_iff_worded {t : SymbolTable} (plain : Plain name) :
    name ∈ t.names ↔ name ∈ t.worded.map (·.name) := by
  simp only [names, worded, List.mem_map, List.mem_filter, decide_eq_true_eq]
  constructor
  · rintro ⟨s, member, rfl⟩
    exact ⟨s, ⟨member, plain⟩, rfl⟩
  · rintro ⟨s, ⟨member, _⟩, same⟩
    exact ⟨s, member, same⟩

theorem names_symbols (tokens : List Token) :
    (tokens.flatMap Token.symbols).map (·.name) = tokens.flatMap (·.kind.places) := by
  simp [Token.symbols, List.map_flatMap, Function.comp_def]

theorem TokenKind.eq_subroutineClose {kind : TokenKind} (regular : kind.Regular) (spaced : ¬ Plain name)
    (places : name ∈ kind.places) : kind = .subroutineClose name := by
  cases kind with
  | parentLabel label implied =>
    rcases List.mem_append.mp places with above | own
    · exact absurd (regular.2 name (Option.mem_toList.mp above)) spaced
    · exact absurd (List.mem_singleton.mp own ▸ regular.1) spaced
  | childLabel label => exact absurd (List.mem_singleton.mp places ▸ regular) spaced
  | subroutineClose label => rw [List.mem_singleton.mp places]
  | _ => simp [TokenKind.places] at places

-- A copy has a number at its end, and no label of a text does.
theorem copy_ne_anonymousLabel (label : String) (n : Nat) (location : Location) :
    s!"{label}#{n}" ≠ Token.anonymousLabel location := by
  intro same
  have whole : (Token.anonymousLabel location).toList = "<lambda ".toList ++ location.text.toList ++ ['>'] := by
    simp [Token.anonymousLabel, toString]
  have ends : (s!"{label}#{n}").toList.getLast? = some '>' := by rw [same, whole, List.getLast?_concat]
  rw [copy_toList, List.getLast?_append_of_ne_nil _ (List.cons_ne_nil _ _)] at ends
  have member := List.mem_of_getLast? ends
  rw [Nat.toList_repr] at member
  rcases List.mem_cons.mp member with hash | digit
  · cases hash
  · exact not_mem_digits n rfl digit

namespace Expander

variable {ctx : Context} {e lexed : Expander} {settings : Settings} {source : List Char} {readings : List Reading}
variable {symbols later : SymbolTable} {nextId next : Nat} {live held held' : List Token}

theorem read_labels (ran : e.read settings source file = .ok lexed) :
    Fresh e.symbols (declarations file (1, 1) none e.symbols (Lexeme.all source)) ∧
    lexed.symbols.entries = e.symbols.entries ++ declarations file (1, 1) none e.symbols (Lexeme.all source) ∧
    lexed.program.flatMap Token.symbols = declarations file (1, 1) none e.symbols (Lexeme.all source) := by
  have registered := Reader.run_registers (e.reader settings source file)
  rw [read_eq] at ran
  cases read : (e.reader settings source file).run with
  | error stop =>
    rw [read] at ran
    cases ran
  | ok r =>
    rw [read] at ran registered
    cases ran
    obtain ⟨fresh, entries⟩ := registered
    exact ⟨fresh, entries, Reader.run_written read⟩

-- What is known after some texts have been read, of which the held tokens are left and copies of them.
structure Collected (readings : List Reading) (symbols : SymbolTable) (nextId : Nat) (held : List Token) : Prop where
  declared : (readings.flatMap (·.text)).flatMap Token.symbols = unitLabels (readings.map (·.source))
  regular : ∀ t ∈ readings.flatMap (·.text), t.kind.Regular
  fresh : ∀ t ∈ readings.flatMap (·.text), t.id < nextId
  serials : ((readings.flatMap (·.text)).map (·.id)).Nodup
  known : ∀ name, Plain name → (name ∈ symbols.names ↔ name ∈ (unitLabels (readings.map (·.source))).map (·.name))
  braces : ∀ t ∈ held, t.kind = .subroutineClose (Token.anonymousLabel t.location) → t ∈ readings.flatMap (·.text)
  apart : ∀ r ∈ readings, (r.text.flatMap (·.kind.places)).Nodup
  once : readings.Pairwise fun r later => ∀ t ∈ r.text, ∀ u ∈ later.text, ∀ name ∈ t.kind.places,
    name ∈ u.kind.places → t.kind = .subroutineClose name ∧ t ∉ later.held ∧ t ∉ held

namespace Collected

theorem start (nextId : Nat) : Collected [] {} nextId [] :=
  ⟨rfl, by simp, by simp, by simp, by simp [SymbolTable.names, unitLabels], by simp, by simp, by simp⟩

-- Braces that are new here were not read, and do not look so.
theorem move (collected : Collected readings symbols nextId held) (worded : later.worded = symbols.worded)
    (serial : nextId ≤ next)
    (new : ∀ u ∈ held', u ∈ held ∨
      ∀ label, u.kind = .subroutineClose label → nextId ≤ u.id ∧ label ≠ Token.anonymousLabel u.location) :
    Collected readings later next held' where
  declared := collected.declared
  regular := collected.regular
  fresh t member := Nat.lt_of_lt_of_le (collected.fresh t member) serial
  serials := collected.serials
  known name plain := by
    rw [← collected.known name plain, SymbolTable.mem_names_iff_worded plain, worded,
      ← SymbolTable.mem_names_iff_worded plain]
  braces t member kind := by
    rcases new t member with old | fresh
    · exact collected.braces t old kind
    · exact absurd rfl (fresh _ kind).2
  apart := collected.apart
  once := by
    refine collected.once.imp_of_mem ?_
    intro r later read _ told t here u there name places again
    obtain ⟨kind, before, gone⟩ := told t here u there name places again
    refine ⟨kind, before, ?_⟩
    intro member
    rcases new t member with old | fresh
    · exact gone old
    · have late := (fresh name kind).1
      have early := collected.fresh t (List.mem_flatMap.mpr ⟨r, read, here⟩)
      omega

theorem mem_names (collected : Collected readings symbols nextId held) {t : Token}
    (read : t ∈ readings.flatMap (·.text)) (places : name ∈ t.kind.places) :
    name ∈ (unitLabels (readings.map (·.source))).map (·.name) := by
  rw [← collected.declared, names_symbols]
  exact List.mem_flatMap.mpr ⟨t, read, places⟩

-- A name that an earlier text has and that is free was the label of a brace that is no longer there.
theorem free (collected : Collected readings e.symbols e.nextId (live ++ e.macros.bodies)) (holds : e.Holds live)
    {t : Token} (read : t ∈ readings.flatMap (·.text)) (places : name ∈ t.kind.places)
    (free : name ∉ e.symbols.names) : t.kind = .subroutineClose name ∧ t ∉ live ++ e.macros.bodies := by
  have spaced : ¬ Plain name := by
    intro plain
    exact free ((collected.known name plain).mpr (collected.mem_names read places))
  have kind := TokenKind.eq_subroutineClose (collected.regular t read) spaced places
  refine ⟨kind, ?_⟩
  intro member
  have label : name ∈ closerLabels (live ++ e.macros.bodies) := mem_closerLabels.mpr ⟨t, member, kind⟩
  exact free (SymbolTable.mem_names_of_anonymous (holds.custody.declared name label))

-- A text finds the names of the texts before it, so it declares what it does in its place of the unit.
theorem declarations_eq (collected : Collected readings e.symbols nextId held) (source : List Char) (file : String) :
    declarations file (1, 1) none e.symbols (Lexeme.all source) =
      SourceText.labels (unitLabels (readings.map (·.source))) ⟨file, source⟩ := by
  refine declarations_congr (Lexeme.all_proper source) ?_
  intro name plain
  rw [Bool.eq_iff_iff, SymbolTable.contains_iff, SymbolTable.contains_iff]
  exact collected.known name plain

theorem free_of_read (collected : Collected readings e.symbols e.nextId (live ++ e.macros.bodies)) (holds : e.Holds live)
    (ran : e.read settings source file = .ok lexed) {t u : Token} (early : t ∈ readings.flatMap (·.text))
    (late : u ∈ lexed.program) (places : name ∈ t.kind.places) (again : name ∈ u.kind.places) :
    t.kind = .subroutineClose name ∧ t ∉ live ++ e.macros.bodies := by
  obtain ⟨new, _, written⟩ := read_labels ran
  have declared : name ∈ (lexed.program.flatMap Token.symbols).map (·.name) := by
    rw [names_symbols]
    exact List.mem_flatMap.mpr ⟨u, late, again⟩
  rw [written] at declared
  obtain ⟨s, member, rfl⟩ := List.mem_map.mp declared
  exact collected.free holds early places (new.unknown s member)

theorem read (collected : Collected readings e.symbols e.nextId (live ++ e.macros.bodies)) (holds : e.Holds live)
    (ran : e.read settings source file = .ok lexed) :
    Collected (readings ++ [⟨⟨file, source⟩, live ++ e.macros.bodies, lexed.program⟩]) lexed.symbols lexed.nextId
      (live ++ lexed.program ++ lexed.macros.bodies) := by
  obtain ⟨macros, serial, ranged, _⟩ := read_records holds.custody.distinct ran
  obtain ⟨lexedHolds, orderly, _⟩ := (read_holds settings source file holds).ok ran
  obtain ⟨new, entries, written⟩ := read_labels ran
  let last : Reading := ⟨⟨file, source⟩, live ++ e.macros.bodies, lexed.program⟩
  have flat : (readings ++ [last]).flatMap (·.text) = readings.flatMap (·.text) ++ lexed.program := by simp [last]
  have listed : (readings ++ [last]).map (·.source) = readings.map (·.source) ++ [⟨file, source⟩] := by simp [last]
  have split {u : Token} (member : u ∈ live ++ lexed.program ++ lexed.macros.bodies) :
      u ∈ live ++ e.macros.bodies ∨ u ∈ lexed.program := by
    rw [macros] at member
    simp only [List.mem_append] at member ⊢
    tauto
  have absent {t : Token} (early : t ∈ readings.flatMap (·.text)) (gone : t ∉ live ++ e.macros.bodies) :
      t ∉ live ++ lexed.program ++ lexed.macros.bodies := by
    intro member
    rcases split member with old | new
    · exact gone old
    · have below := collected.fresh t early
      have above := (ranged t new).1
      omega
  refine ⟨?_, ?_, ?_, ?_, ?_, ?_, ?_, ?_⟩
  · rw [flat, listed, List.flatMap_append, collected.declared, written, collected.declarations_eq, unitLabels_snoc]
  · rw [flat]
    exact List.forall_mem_append.mpr ⟨collected.regular, orderly.regular⟩
  · rw [flat]
    refine List.forall_mem_append.mpr ⟨?_, fun t late => (ranged t late).2⟩
    intro t early
    exact Nat.lt_of_lt_of_le (collected.fresh t early) serial
  · have own := lexedHolds.serials
    rw [List.map_append] at own
    rw [flat, List.map_append]
    refine collected.serials.append own.of_append_right ?_
    intro id early late
    obtain ⟨t, first, rfl⟩ := List.mem_map.mp early
    obtain ⟨u, second, same⟩ := List.mem_map.mp late
    have below := collected.fresh t first
    have above := (ranged u second).1
    omega
  · intro name plain
    have before := collected.known name plain
    rw [listed, unitLabels_snoc, ← collected.declarations_eq]
    simp only [SymbolTable.names, entries, List.map_append, List.mem_append] at before ⊢
    rw [before]
  · intro t member kind
    rw [flat]
    rcases split member with old | new
    · exact List.mem_append_left _ (collected.braces t old kind)
    · exact List.mem_append_right _ new
  · refine List.forall_mem_append.mpr ⟨collected.apart, List.forall_mem_singleton.mpr ?_⟩
    have unique := new.apart
    rwa [← written, names_symbols] at unique
  · rw [List.pairwise_append]
    refine ⟨?_, List.pairwise_singleton _ _, ?_⟩
    · refine collected.once.imp_of_mem ?_
      intro r later read _ told t here u there name places again
      obtain ⟨kind, before, gone⟩ := told t here u there name places again
      exact ⟨kind, before, absent (List.mem_flatMap.mpr ⟨r, read, here⟩) gone⟩
    · intro r read later last t here u there name places again
      obtain rfl := List.mem_singleton.mp last
      have early : t ∈ readings.flatMap (·.text) := List.mem_flatMap.mpr ⟨r, read, here⟩
      obtain ⟨kind, gone⟩ := collected.free_of_read holds ran early there places again
      exact ⟨kind, gone, absent early gone⟩

variable {foreign front rest : List Token} {t : Token} {span : BodySpan}

theorem captured (collected : Collected readings e.symbols e.nextId (foreign ++ (front ++ t :: rest) ++ e.macros.bodies))
    (orderly : Orderly (front ++ t :: rest)) (fits : span.Fits rest) :
    Collected readings (captured e t name span).symbols (captured e t name span).nextId
      (foreign ++ (front ++ { t with kind := .macroDefinition name true } :: (span.gap ++ span.rest)) ++
        (captured e t name span).macros.bodies) := by
  refine collected.move (captured_worded orderly fits) (Nat.le_refl _) ?_
  intro u member
  rcases mem_of_captured foreign fits member with rfl | there
  · exact .inr nofun
  · exact .inl there

theorem copied {m : Macro} {c : Copying}
    (collected : Collected readings e.symbols e.nextId (foreign ++ (front ++ t :: rest) ++ e.macros.bodies))
    (holds : e.Holds (foreign ++ (front ++ t :: rest))) (known : m ∈ e.macros.entries) (renamed : Renamed e m.body c) :
    Collected readings (c.finished m t).symbols (c.finished m t).nextId
      (foreign ++ (front ++ copyBody c.expander.nextId m.body c.label ++ rest) ++ (c.finished m t).macros.bodies) := by
  have inner := holds.body_custody known
  refine collected.move (renamed.worded (holds.stored m known).1) (renamed.nextId_le t) ?_
  intro u member
  rcases renamed.mem_of_copied foreign member with copy | there
  · right
    intro label kind
    refine ⟨renamed.copy_fresh copy, ?_⟩
    have copied : label ∈ closerLabels (copyBody c.expander.nextId m.body c.label) :=
      mem_closerLabels.mpr ⟨u, copy, kind⟩
    rw [copyBody_closerLabels _ _ inner.serials, renamed.map_label inner.labels] at copied
    obtain ⟨entry, listed, rfl⟩ := List.mem_map.mp copied
    obtain ⟨n, number⟩ := (renamed.new entry (List.mem_reverse.mp listed)).1
    rw [number]
    exact copy_ne_anonymousLabel _ _ _
  · exact .inl there

end Collected

theorem collected_tracking (ctx : Context) :
    Tracking ctx fun readings e live => Collected readings e.symbols e.nextId (live ++ e.macros.bodies) where
  start _ _ := .start 0
  aside collected symbols macros nextId := by
    rw [symbols, macros, nextId]
    exact collected
  read collected holds ran := collected.read holds ran
  captured collected orderly _ fits := collected.captured orderly fits
  copied collected holds _ known renamed := collected.copied holds known renamed
  spliced collected _ _ _ _ := by
    refine collected.move rfl (Nat.le_refl _) fun u member => .inl ?_
    simp only [List.mem_append, List.mem_cons] at member ⊢
    tauto

end Expander

-- The tokens of all texts declare the labels of the unit, those of one text never a name twice. A text that is read
-- later declares a name again only if the earlier token is a closing brace that was gone by then, from the texts that
-- waited and from the bodies of macros, and has not come back.
structure DeclaredOnce (e : Expander) (readings : List Reading) : Prop where
  serials : ((readings.flatMap (·.text)).map (·.id)).Nodup
  declared : (readings.flatMap (·.text)).flatMap Token.symbols = unitLabels (readings.map (·.source))
  braces : ∀ t ∈ e.program ++ e.macros.bodies, t.kind = .subroutineClose (Token.anonymousLabel t.location) →
    t ∈ readings.flatMap (·.text)
  apart : ∀ r ∈ readings, (r.text.flatMap (·.kind.places)).Nodup
  once : readings.Pairwise fun r later => ∀ t ∈ r.text, ∀ u ∈ later.text, ∀ name ∈ t.kind.places,
    name ∈ u.kind.places → t.kind = .subroutineClose name ∧ t ∉ later.held ∧ t ∉ e.program ++ e.macros.bodies

theorem Input.expand_declaredOnce {ctx : Context} {input : Input} {journal : Journal} {e : Expander}
    (ran : input.expand ctx { journal } = .ok e) :
    ∃ main others, ReadInTurn ctx input journal e main others ∧ DeclaredOnce e (main :: others) := by
  obtain ⟨main, others, read, collected⟩ := (Expander.collected_tracking ctx).input ran
  exact ⟨main, others, read, collected.serials, collected.declared, collected.braces, collected.apart, collected.once⟩

-- Whatever the table and the scope to begin with, a text that is read has declared its labels in their order, and none
-- of their names was known; where a name is told to be taken, it is the first that is, and those before it are in the
-- table. Texts that are read one after the other share the table.
theorem labels_declared_once :
    (∀ file source checkComments scope symbols journal nextId,
      let outcome := ({ file, source, checkComments, scope, symbols, journal, nextId } : Reader).run
      let new := declarations file (1, 1) (scope.parent.map (·.1)) symbols (Lexeme.all source)
      (∀ r, outcome = .ok r → r.tokens.toList.flatMap Token.symbols = new ∧ Fresh symbols new ∧
        r.symbols.entries = symbols.entries ++ new) ∧
      ∀ stop name first location line, outcome = .error stop →
        stop.failure = .report ⟨.duplicateLabel name first, location, line⟩ →
          Collides symbols new stop.state.symbols name first location) ∧
    ∀ ctx input journal e, Input.expand ctx input { journal } = .ok e →
      ∃ main others, ReadInTurn ctx input journal e main others ∧ DeclaredOnce e (main :: others) := by
  refine ⟨?_, fun _ _ _ _ => Input.expand_declaredOnce⟩
  intro file source checkComments scope symbols journal nextId outcome new
  have registers : Registers symbols new outcome := Reader.run_registers _
  refine ⟨?_, ?_⟩
  · intro r ran
    have written : r.tokens.toList.flatMap Token.symbols = new := Reader.run_written ran
    rw [ran] at registers
    exact ⟨written, registers⟩
  · intro stop name first location line stopped failed
    rw [stopped] at registers
    exact registers name first location line failed

-- A child is declared again under its full name; and a file has a brace where the text that includes it had one.
theorem labels_declared_once_collision :
    (∃ stop, let known : SymbolTable := ⟨[⟨"p", ⟨"g", 1, 1⟩, none, false⟩]⟩
      Reader.run ⟨"f", "@q/a &b\n@q/b &a".toList, true, {}, known, [], 0, 1, 1, [], #[]⟩ = .error stop ∧
      Collides known (declarations "f" (1, 1) none known (Lexeme.all "@q/a &b\n@q/b &a".toList)) stop.state.symbols
        "q/b" (some ⟨"f", 1, 6⟩) (some ⟨"f", 2, 1⟩)) ∧
    ∃ e main others,
      let ctx : Context := ⟨{}, ⟨[], [(["f"], .file "%n \x7b 00 \x7d".toUTF8.toList)]⟩⟩
      let input : Input := .text "%m \x7b 00 \x7d ~f".toList "f"
      input.expand ctx {} = .ok e ∧ ReadInTurn ctx input [] e main others ∧ DeclaredOnce e (main :: others) ∧
        others.map (·.source.file) = ["f"] := by
  refine ⟨?_, ?_⟩
  · let known : SymbolTable := ⟨[⟨"p", ⟨"g", 1, 1⟩, none, false⟩]⟩
    have failed : (Reader.run ⟨"f", "@q/a &b\n@q/b &a".toList, true, {}, known, [], 0, 1, 1, [], #[]⟩).failure? =
        some (.report ⟨.duplicateLabel "q/b" (some ⟨"f", 1, 6⟩), some ⟨"f", 2, 1⟩, some "@q/b &a"⟩) := by decide +kernel
    obtain ⟨stop, stopped, failure⟩ := eq_error_of_failure? failed
    exact ⟨stop, stopped, (labels_declared_once.1 "f" _ true {} known [] 0).2 stop _ _ _ _ stopped failure⟩
  · let ctx : Context := ⟨{}, ⟨[], [(["f"], .file "%n \x7b 00 \x7d".toUTF8.toList)]⟩⟩
    let input : Input := .text "%m \x7b 00 \x7d ~f".toList "f"
    have made : (input.expand ctx {}).toOption.map (fun e => e.journal.opened) = some ["f"] := by decide +kernel
    obtain ⟨e, ran, opened⟩ := Option.map_eq_some_iff.mp made
    obtain ⟨main, others, read, once⟩ := labels_declared_once.2 ctx input [] e (eq_ok_of_toOption ran)
    exact ⟨e, main, others, eq_ok_of_toOption ran, read, once, read.opened.symm.trans opened⟩

-- A brace that still waits to end its body keeps its name from the file.
example :
    let ctx : Context := ⟨{}, ⟨[], [(["f"], .file "%n \x7b 00 \x7d".toUTF8.toList)]⟩⟩
    ((Input.text "~f %m \x7b \x7d".toList "f").expand ctx {}).failure? =
      some (.report ⟨.duplicateLabel "<lambda f:1:9>" (some ⟨"f", 1, 9⟩), some ⟨"f", 1, 9⟩, some "%n \x7b 00 \x7d"⟩) := by
  decide +kernel

-- Both texts come through although their braces have one name.
theorem brace_declared_twice : ¬ ∀ ctx input journal e main others, Input.expand ctx input { journal } = .ok e →
    input.Gives ctx main.chars main.file → e.journal.opened = journal.opened ++ others.map (·.file) →
      (∀ s ∈ others, OnDisk ctx s) → ((unitLabels (main :: others)).map (·.name)).Nodup := by
  intro always
  let ctx : Context := ⟨{}, ⟨[], [(["f"], .file "%n \x7b 00 \x7d".toUTF8.toList)]⟩⟩
  let main : SourceText := ⟨"f", "%m \x7b 00 \x7d ~f".toList⟩
  let other : SourceText := ⟨"f", "%n \x7b 00 \x7d".toList⟩
  have made : ((Input.text main.chars main.file).expand ctx {}).toOption.map (fun e => e.journal.opened) =
      some ["f"] := by decide +kernel
  obtain ⟨e, ran, opened⟩ := Option.map_eq_some_iff.mp made
  have stored : ctx.disk.readText ⟨"", ["f"]⟩ = .ok other.chars := eq_ok_of_toOption (by decide +kernel)
  have unique := always ctx (.text main.chars main.file) [] e main [other] (eq_ok_of_toOption ran) (.inl rfl) opened
    (by simpa using ⟨_, stored, rfl⟩)
  exact absurd unique (by decide +kernel)

end RuneAsm
