import Mathlib
import RuneAsm.Proofs.Scanning

namespace RuneAsm

open Run

-- Labels in the order in which a text declares them. What a lexeme declares follows from its place, the scope it stands
-- in and the names that are known by then, so the labels of a text are a list that can be told before it is read.
-- Reading enters them in the table one by one and stops at the first whose name is taken.

-- A label with a slash declares its parent first if that name is new. A closing brace declares the label of the
-- subroutine that it ends.
def Lexeme.labels (location : Location) (parent : Option String) (known : String → Bool) : Lexeme → List Symbol
  | .bracket c => if c = '\x7d' then [⟨Token.anonymousLabel location, location, none, true⟩] else []
  | .word first rest =>
    if first = '@' then
      let label := String.ofList rest
      (((parentOf label).filter (!known ·)).toList ++ [label]).map (⟨·, location, none, false⟩)
    else if first = '&' then (qualified parent rest).toList.map (⟨·, location, none, false⟩)
    else []
  | _ => []

-- The labels of lexemes from a place on, in the scope of a label, where the names of a table are known.
def declarations (file : String) : Nat × Nat → Option String → SymbolTable → List Lexeme → List Symbol
  | _, _, _, [] => []
  | place, parent, table, lexeme :: rest =>
    let new := lexeme.labels ⟨file, place.1, place.2⟩ parent table.contains
    new ++ declarations file (lexeme.text.foldl Reader.passed place) (lexeme.scopeAfter parent)
      ⟨table.entries ++ new⟩ rest

-- The labels that a token declares, at its place.
def Token.symbols (t : Token) : List Symbol := t.kind.places.map (⟨·, t.location, none, t.kind.closes?.isSome⟩)

def Declaration.symbol (location : Location) (d : Declaration) : Symbol := ⟨d.name, location, none, d.anonymous⟩

namespace Lexeme

variable {location : Location} {parent : Option String} {known : String → Bool} {lexeme : Lexeme} {m : Meaning}

-- The labels are those that are going to be declared, and those of the token.
structure Labels (location : Location) (labels : List Symbol) (m : Meaning) : Prop where
  declared : m.declares.map (·.symbol location) = labels
  placed : m.kind.places.map (⟨·, location, none, m.kind.closes?.isSome⟩) = labels

theorem numberMeaning_labels {what : String} {digits : List Char} {make : Int → TokenKind}
    (meant : numberMeaning what digits make = .ok m) (places : ∀ n, (make n).places = []) : Labels location [] m := by
  unfold numberMeaning at meant
  split at meant
  · cases meant
    exact ⟨rfl, by simp [places]⟩
  · cases meant

theorem namedMeaning_labels {first : Char} {name : List Char} {make : String → TokenKind}
    (meant : namedMeaning first name make = .ok m) (places : ∀ x, (make x).places = []) : Labels location [] m := by
  unfold namedMeaning at meant
  split at meant
  · cases meant
  · cases meant
    exact ⟨rfl, by simp [places]⟩

theorem referenceMeaning_labels {form : ReferenceForm} {first : Char} {target : List Char}
    (meant : referenceMeaning parent form first target = .ok m) : Labels location [] m := by
  unfold referenceMeaning at meant
  split at meant
  · cases meant
  · cases meant
    exact ⟨rfl, rfl⟩
  · split at meant
    · split at meant <;> cases meant
      exact ⟨rfl, rfl⟩
    · cases meant
      exact ⟨rfl, rfl⟩

theorem parentMeaning_labels {name : List Char} (meant : parentMeaning known name = .ok m) :
    Labels location ((((parentOf (String.ofList name)).filter (!known ·)).toList ++ [String.ofList name]).map
      (⟨·, location, none, false⟩)) m := by
  unfold parentMeaning at meant
  dsimp only at meant
  split at meant
  · cases meant
  · split at meant
    · rename_i slash
      have parent : parentOf (String.ofList name) = some (String.ofList (name.takeWhile (· ≠ '/'))) := by
        rw [parentOf, String.toList_ofList, if_pos slash]
      rw [parent, Option.filter_some]
      generalize String.ofList (name.takeWhile (· ≠ '/')) = above at meant ⊢
      split at meant
      · cases meant
      · split at meant
        · rename_i old
          cases meant
          constructor <;> simp [old, Declaration.symbol, TokenKind.places, TokenKind.closes?]
        · rename_i new
          cases meant
          constructor <;> simp [new, Declaration.symbol, TokenKind.places, TokenKind.closes?]
    · rename_i noSlash
      have none : parentOf (String.ofList name) = none := by rw [parentOf, String.toList_ofList, if_neg noSlash]
      cases meant
      rw [none]
      constructor <;> simp [Declaration.symbol, TokenKind.places, TokenKind.closes?]

theorem childMeaning_labels {name : List Char} (meant : childMeaning parent name = .ok m) :
    Labels location ((qualified parent name).toList.map (⟨·, location, none, false⟩)) m := by
  unfold childMeaning at meant
  split at meant
  · cases meant
  · split at meant
    · cases meant
    · rename_i label found
      cases meant
      constructor <;> simp [found, Declaration.symbol, TokenKind.places, TokenKind.closes?]

theorem ofChar?_at {c : Char} {rune : Rune} (found : Rune.ofChar? c = some rune) :
    (rune = .parentLabel ↔ c = '@') ∧ (rune = .childLabel ↔ c = '&') := by
  unfold Rune.ofChar? at found
  split at found <;> cases found <;> decide

theorem wordMeaning_labels {first : Char} {rest : List Char} (meant : wordMeaning parent known first rest = .ok m) :
    Labels location ((Lexeme.word first rest).labels location parent known) m := by
  unfold wordMeaning at meant
  split at meant
  · cases meant
  · simp only [labels]
    cases found : Rune.ofChar? first with
    | none =>
      have noParent : first ≠ '@' := by
        rintro rfl
        cases found
      have noChild : first ≠ '&' := by
        rintro rfl
        cases found
      rw [if_neg noParent, if_neg noChild]
      rw [found] at meant
      simp only [plainMeaning] at meant
      split at meant
      · cases meant
        exact ⟨rfl, rfl⟩
      · split at meant
        · cases meant
          exact ⟨rfl, rfl⟩
        · exact referenceMeaning_labels meant
    | some rune =>
      rw [found] at meant
      change runeMeaning parent known first rest rune = .ok m at meant
      obtain ⟨isParent, isChild⟩ := ofChar?_at found
      simp only [← isParent, ← isChild]
      cases rune with
      | literalHex | padAbsolute | padRelative | retarget =>
        rw [runeMeaning] at meant
        exact numberMeaning_labels meant fun _ => rfl
      | rawText =>
        cases meant
        exact ⟨rfl, rfl⟩
      | parentLabel => exact parentMeaning_labels meant
      | childLabel => exact childMeaning_labels meant
      | reference form => exact referenceMeaning_labels meant
      | inclusion | macroDefinition =>
        rw [runeMeaning] at meant
        exact namedMeaning_labels meant fun _ => rfl

theorem meaning_labels (proper : lexeme.Proper) (meant : lexeme.meaning location parent known = .ok m) :
    Labels location (lexeme.labels location parent known) m := by
  cases lexeme with
  | blank text =>
    cases meant
    exact ⟨rfl, rfl⟩
  | comment text closed =>
    cases closed <;> cases meant
    exact ⟨rfl, rfl⟩
  | bracket c =>
    cases meant
    have bracket : ((c = '[' ∨ c = ']') ∨ c = '\x7b') ∨ c = '\x7d' := by simpa [Proper, isBracket] using proper
    rcases bracket with ((rfl | rfl) | rfl) | rfl <;> exact ⟨rfl, rfl⟩
  | word first rest => exact wordMeaning_labels meant

end Lexeme

-- New labels have names of their own.
structure Fresh (start : SymbolTable) (new : List Symbol) : Prop where
  apart : (new.map (·.name)).Nodup
  unknown : ∀ s ∈ new, s.name ∉ start.names

-- The labels before the first whose name is taken are in the table, and the name is told with the earlier place.
def Collides (start : SymbolTable) (new : List Symbol) (table : SymbolTable) (name : String)
    (first location : Option Location) : Prop :=
  ∃ before s after earlier, new = before ++ s :: after ∧ Fresh start before ∧
    table.entries = start.entries ++ before ∧ s.name = name ∧ location = some s.location ∧
    table.find? name = some earlier ∧ first = some earlier.location

-- Either all labels are entered, each in its turn, or it is told which one could not be.
def Registers (start : SymbolTable) (new : List Symbol) (x : Run Reader) : Prop :=
  match x with
  | .ok r => Fresh start new ∧ r.symbols.entries = start.entries ++ new
  | .error stop => ∀ name first location line,
    stop.failure = .report ⟨.duplicateLabel name first, location, line⟩ →
      Collides start new stop.state.symbols name first location

section

variable {start : SymbolTable} {new more : List Symbol} {r : Reader} {x : Run Reader} {f : Reader → Run Reader}

theorem Fresh.nil (start : SymbolTable) : Fresh start [] := ⟨List.nodup_nil, by simp⟩

theorem Fresh.append {middle : SymbolTable} (first : Fresh start new) (entries : middle.entries = start.entries ++ new)
    (second : Fresh middle more) : Fresh start (new ++ more) := by
  have names : middle.names = start.names ++ new.map (·.name) := by simp [SymbolTable.names, entries]
  have unknown : ∀ s ∈ more, s.name ∉ start.names ∧ s.name ∉ new.map (·.name) := by
    intro s member
    simpa [names] using second.unknown s member
  refine ⟨?_, ?_⟩
  · rw [List.map_append]
    refine first.apart.append second.apart ?_
    intro name early late
    obtain ⟨s, member, rfl⟩ := List.mem_map.mp late
    exact (unknown s member).2 early
  · intro s member
    rcases List.mem_append.mp member with early | late
    · exact first.unknown s early
    · exact (unknown s late).1

namespace Registers

theorem none (entries : r.symbols.entries = start.entries) : Registers start [] (.ok r) :=
  ⟨.nil start, by rw [entries, List.append_nil]⟩

-- A failure of another kind says nothing about labels.
theorem other {cause : Cause} {location : Location} (apart : ∀ name first, cause ≠ .duplicateLabel name first) :
    Registers start new (r.failAt location cause) := by
  intro name first place line same
  cases same
  exact absurd rfl (apart name first)

theorem andThen (first : Registers start new x) (second : ∀ r, x = .ok r → Registers r.symbols more (f r)) :
    Registers start (new ++ more) (x.andThen f) := by
  cases x with
  | error stop =>
    intro name told location line failed
    obtain ⟨before, s, after, earlier, parts, rest⟩ := first name told location line failed
    exact ⟨before, s, after ++ more, earlier, by simp [parts], rest⟩
  | ok r =>
    obtain ⟨fresh, entries⟩ := first
    have later := second r rfl
    rw [andThen_ok]
    cases ran : f r with
    | ok last =>
      rw [ran] at later
      exact ⟨fresh.append entries later.1, by rw [later.2, entries, List.append_assoc]⟩
    | error stop =>
      rw [ran] at later
      intro name told location line failed
      obtain ⟨before, s, after, earlier, parts, freshToo, table, rest⟩ := later name told location line failed
      exact ⟨new ++ before, s, after, earlier, by simp [parts], fresh.append entries freshToo,
        by rw [table, entries, List.append_assoc], rest⟩

theorem andThen_quiet (first : Registers start new x) (second : ∀ r, x = .ok r → Registers r.symbols [] (f r)) :
    Registers start new (x.andThen f) := by
  simpa using first.andThen second

end Registers

end

namespace Reader

variable {r next : Reader} {text : List Char} {lexeme : Lexeme} {lexemes : List Lexeme} {m : Meaning}

theorem define_registers (r : Reader) (name : String) (anonymous : Bool) :
    Registers r.symbols [⟨name, r.location, none, anonymous⟩] (r.define name anonymous) := by
  unfold define
  cases defined : r.symbols.define name r.location anonymous with
  | ok symbols =>
    obtain ⟨new, rfl⟩ := SymbolTable.define_ok_iff.mp defined
    exact ⟨⟨List.nodup_singleton _, by simpa using new⟩, rfl⟩
  | error earlier =>
    have found : r.symbols.find? name = some earlier := by
      unfold SymbolTable.define at defined
      split at defined
      · rename_i found
        cases defined
        exact found
      · cases defined
    intro told first location line failed
    cases failed
    exact ⟨[], _, [], earlier, rfl, .nil _, by simp, rfl, rfl, found, rfl⟩

theorem declare_registers (r : Reader) (d : Declaration) :
    Registers r.symbols [d.symbol r.location] (r.declare d) := by
  unfold declare
  cases d.enters with
  | none => exact define_registers r d.name d.anonymous
  | some name => exact define_registers (r.enter name) d.name d.anonymous

theorem each_declare_registers (r : Reader) (ds : List Declaration) :
    Registers r.symbols (ds.map (·.symbol r.location)) (Run.each declare r ds) := by
  induction ds generalizing r with
  | nil => exact .none rfl
  | cons d ds ih =>
    rw [each_cons, List.map_cons, ← List.singleton_append]
    refine (declare_registers r d).andThen ?_
    intro next declared
    have framed := declares_frame r [d]
    rw [each_declare_one] at framed
    obtain ⟨scope, symbols, journal, rfl⟩ := framed.ok declared
    exact ih _

theorem accept_registers (r : Reader) (text : List Char) (m : Meaning) :
    Registers r.symbols (m.declares.map (·.symbol r.location)) (r.accept text m) := by
  unfold accept
  split
  · refine (each_declare_registers r m.declares).andThen_quiet ?_
    intro mid _
    unfold attach
    split <;> exact .none rfl
  · split
    · exact .other (by simp)
    · split
      · exact .other (by simp)
      · refine (each_declare_registers r m.declares).andThen_quiet ?_
        intro mid _
        exact .none rfl

theorem take_registers (r : Reader) (proper : lexeme.Proper) :
    Registers r.symbols (lexeme.labels r.location r.parent r.symbols.contains) (r.take lexeme) := by
  obtain ⟨journal, remarked⟩ := remark_frame r lexeme
  rw [take_eq r proper, remarked]
  cases meant : lexeme.meaning r.location r.parent r.symbols.contains with
  | error fault => exact .other (by simp)
  | ok m =>
    rw [← (Lexeme.meaning_labels proper meant).declared]
    exact accept_registers _ lexeme.text m

theorem step_registers (r : Reader) (proper : lexeme.Proper) :
    Registers r.symbols (lexeme.labels r.location r.parent r.symbols.contains) (r.step lexeme) := by
  have taken := take_registers r proper
  unfold step
  cases ran : r.take lexeme with
  | error stop =>
    rw [ran] at taken
    exact taken
  | ok mid =>
    rw [ran] at taken
    obtain ⟨line, column, moved⟩ := foldl_advance lexeme.text mid
    change Registers _ _ (.ok (lexeme.text.foldl advance mid))
    rw [moved]
    exact taken

-- Where the next lexeme stands.
theorem step_place (proper : lexeme.Proper) (ran : r.step lexeme = .ok next) : next.file = r.file ∧
    next.place = lexeme.text.foldl passed r.place ∧ next.parent = lexeme.scopeAfter r.parent := by
  obtain ⟨mid, line, column, taken, rfl, arrived⟩ := step_eq_ok ran
  obtain ⟨_, parent, file, place, _⟩ := (take_adds r proper).ok taken
  exact ⟨file, by rw [arrived, place], parent⟩

theorem step_table (proper : lexeme.Proper) (ran : r.step lexeme = .ok next) :
    next.symbols = ⟨r.symbols.entries ++ lexeme.labels r.location r.parent r.symbols.contains⟩ := by
  have registered := step_registers r proper
  rw [ran] at registered
  exact congrArg SymbolTable.mk registered.2

theorem each_registers (r : Reader) (proper : ∀ lexeme ∈ lexemes, lexeme.Proper) :
    Registers r.symbols (declarations r.file r.place r.parent r.symbols lexemes) (Run.each step r lexemes) := by
  induction lexemes generalizing r with
  | nil => exact .none rfl
  | cons lexeme rest ih =>
    have here := proper lexeme List.mem_cons_self
    rw [each_cons, declarations]
    refine (step_registers r here).andThen ?_
    intro next ran
    obtain ⟨file, place, parent⟩ := step_place here ran
    have table := step_table here ran
    have later := ih next fun other member => proper other (List.mem_cons_of_mem _ member)
    rw [file, place, parent, table] at later
    rw [table]
    exact later

theorem run_registers (r : Reader) :
    Registers r.symbols (declarations r.file r.place r.parent r.symbols (Lexeme.all r.source)) r.run := by
  refine (each_registers r (Lexeme.all_proper r.source)).andThen_quiet ?_
  intro last _
  unfold finish
  split
  · exact .none rfl
  · exact .other (by simp)

def written (r : Reader) : List Symbol := r.tokens.toList.flatMap Token.symbols

theorem symbols_of_closer? {t : Token} {c : Char} (opens : t.kind.closer? = some c) : t.symbols = [] := by
  unfold Token.symbols
  cases kind : t.kind <;> simp_all [TokenKind.closer?, TokenKind.places]

-- A bracket that waits for its partner declares nothing, before and after.
theorem symbols_closedBy {opener : Token} {c : Char} (opens : opener.kind.closer? = some c) (closer : Nat)
    (label : Option String) : (opener.closedBy closer label).symbols = [] := by
  unfold Token.closedBy
  split
  · rfl
  · exact symbols_of_closer? (t := { opener with partner := some closer }) opens

theorem pair_written {frame : Frame} {outer : List Frame} {c : Char} {kind : TokenKind}
    (frames : r.frames = frame :: outer) (opens : frame.opener.kind.closer? = some c) :
    (r.pair frame outer text kind).written = r.written ++ (r.token text kind).symbols := by
  have opener := symbols_of_closer? opens
  have closed := symbols_closedBy opens r.nextId kind.label?
  rw [written, pair_tokens, written, tokens_toList, frames, outside_cons]
  simp only [List.flatMap_append, List.flatMap_cons, List.flatMap_nil, List.append_nil, opener, closed,
    List.append_assoc, List.nil_append]
  rfl

theorem accept_written (ran : r.accept text m = .ok next) :
    next.written = r.written ++ (r.token text m.kind).symbols := by
  have framed := declares_frame r m.declares
  unfold accept at ran
  split at ran
  · obtain ⟨mid, declared, attached⟩ := andThen_eq_ok ran
    obtain ⟨scope, symbols, journal, rfl⟩ := framed.ok declared
    unfold attach at attached
    split at attached
    · cases attached
      simp [written, tokens_toList, outside_cons, token, location]
    · cases attached
      simp [written, tokens_toList, token, location]
  · split at ran
    · cases ran
    · rename_i frame outer frames
      split at ran
      · cases ran
      · rename_i opens
        obtain ⟨mid, declared, paired⟩ := andThen_eq_ok ran
        obtain ⟨scope, symbols, journal, rfl⟩ := framed.ok declared
        cases paired
        exact pair_written (r := { r with scope, symbols, journal }) frames (not_not.mp opens)

theorem step_written (proper : lexeme.Proper) (ran : r.step lexeme = .ok next) :
    next.written = r.written ++ lexeme.labels r.location r.parent r.symbols.contains := by
  obtain ⟨mid, line, column, taken, rfl, _⟩ := step_eq_ok ran
  obtain ⟨journal, remarked⟩ := remark_frame r lexeme
  rw [take_eq r proper, remarked] at taken
  cases meant : lexeme.meaning r.location r.parent r.symbols.contains with
  | error fault =>
    rw [meant] at taken
    cases taken
  | ok m =>
    rw [meant] at taken
    have accepted : mid.written = r.written ++ (r.token lexeme.text m.kind).symbols :=
      accept_written (r := { r with journal }) taken
    rw [← (Lexeme.meaning_labels proper meant).placed]
    exact accepted

theorem each_written (proper : ∀ lexeme ∈ lexemes, lexeme.Proper) (ran : Run.each step r lexemes = .ok next) :
    next.written = r.written ++ declarations r.file r.place r.parent r.symbols lexemes := by
  induction lexemes generalizing r with
  | nil =>
    cases ran
    simp [declarations]
  | cons lexeme rest ih =>
    obtain ⟨mid, first, others⟩ := andThen_eq_ok ran
    have here := proper lexeme List.mem_cons_self
    obtain ⟨file, place, parent⟩ := step_place here first
    have later := ih (fun other member => proper other (List.mem_cons_of_mem _ member)) others
    rw [later, step_written here first, file, place, parent, step_table here first, declarations, List.append_assoc]
    rfl

theorem run_written (ran : r.run = .ok next) :
    next.written = r.written ++ declarations r.file r.place r.parent r.symbols (Lexeme.all r.source) := by
  obtain ⟨read, _⟩ := run_eq_ok ran
  exact each_written (Lexeme.all_proper r.source) read

end Reader

end RuneAsm
