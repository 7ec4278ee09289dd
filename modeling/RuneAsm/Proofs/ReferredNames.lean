import Mathlib
import RuneAsm.Proofs.ParentNames

namespace RuneAsm

open Run

-- Names that references write and names that labels can have. A label is only given a name with something on both sides
-- of its first slash. A reference has something before the slash, because its scope has a name, but what follows the
-- slash is not looked at: a lone slash or ampersand, or a word that ends with its only slash, is read as a name that no
-- label can have.

structure Definable (name : String) : Prop where
  nonempty : name ≠ ""
  plain : Plain name
  before : '/' ∈ name.toList → name.toList.takeWhile (· ≠ '/') ≠ []
  after : '/' ∈ name.toList → (name.toList.dropWhile (· ≠ '/')).tail ≠ []

-- Labels and references belong to a scope with such a name, or to none.
def Opened (parent : Option String) : Prop := ∀ name, parent = some name → name ≠ "" ∧ Plain name ∧ '/' ∉ name.toList

-- A reading that starts anew comes to its end and gives a token that declares the name.
def Declarable (name : String) : Prop :=
  ∃ r next : Reader, (r.frames = [] ∧ r.latest = #[] ∧ Opened r.parent) ∧ r.run = .ok next ∧
    ∃ t ∈ next.tokens.toList, t.kind.isNamed = true ∧ t.kind.label? = some name

theorem opened_none : Opened none := by
  rintro name ⟨⟩

namespace Lexeme

variable {inside : Option String} {lexeme : Lexeme} {location : Location} {known : String → Bool} {m : Meaning}
  {name target : List Char} {label : String}

theorem qualified_toList (found : qualified inside name = some label) :
    ∃ parent, inside = some parent ∧ label.toList = parent.toList ++ '/' :: name := by
  obtain ⟨parent, opened, rfl⟩ := Option.map_eq_some_iff.mp found
  exact ⟨parent, opened, by simp [toString]⟩

theorem qualified_parts (opened : Opened inside) (found : qualified inside name = some label) :
    label ≠ "" ∧ label.toList.takeWhile (· ≠ '/') ≠ [] ∧ label.toList.dropWhile (· ≠ '/') = '/' :: name := by
  obtain ⟨parent, entered, text⟩ := qualified_toList found
  obtain ⟨named, _, slashless⟩ := opened parent entered
  rw [text, takeWhile_slash slashless, dropWhile_slash slashless]
  refine ⟨?_, ?_, rfl⟩
  · intro empty
    simp [empty] at text
  · intro empty
    exact named (String.toList_inj.mp (by simpa using empty))

theorem qualified_plain (opened : Opened inside) (plain : ∀ c ∈ name, isBlank c = false)
    (found : qualified inside name = some label) : Plain label := by
  obtain ⟨parent, entered, text⟩ := qualified_toList found
  intro c member
  rw [text] at member
  rcases List.mem_append.mp member with front | back
  · exact (opened parent entered).2.1 c front
  · rcases List.mem_cons.mp back with rfl | rest
    · rfl
    · exact plain c rest

theorem parentMeaning_definable (plain : ∀ c ∈ name, isBlank c = false) (meant : parentMeaning known name = .ok m) :
    Definable (String.ofList name) ∧ Opened (some (String.ofList (name.takeWhile (· ≠ '/')))) := by
  have opened (nonempty : name.takeWhile (· ≠ '/') ≠ []) : Opened (some (String.ofList (name.takeWhile (· ≠ '/')))) := by
    rintro above ⟨⟩
    refine ⟨String.ofList_eq_empty_iff.not.mpr nonempty, ?_, by simpa using slash_not_mem_takeWhile name⟩
    exact plain_ofList.mpr fun c member => plain c ((List.takeWhile_sublist _).subset member)
  unfold parentMeaning at meant
  dsimp only at meant
  split at meant
  · cases meant
  · rename_i nonempty
    have nonempty : name ≠ [] := by simpa using nonempty
    split at meant
    · split at meant
      · cases meant
      · rename_i halves
        simp only [Bool.or_eq_true, List.isEmpty_iff, not_or, List.drop_one] at halves
        refine ⟨⟨String.ofList_eq_empty_iff.not.mpr nonempty, plain_ofList.mpr plain, ?_, ?_⟩, opened halves.1⟩
        · simpa using fun _ => halves.1
        · simpa using fun _ => halves.2
    · rename_i noSlash
      have noSlash : '/' ∉ name := by simpa using noSlash
      have whole : name.takeWhile (· ≠ '/') = name :=
        takeWhile_ne_of_not_contains (by simpa using noSlash)
      refine ⟨⟨String.ofList_eq_empty_iff.not.mpr nonempty, plain_ofList.mpr plain, ?_, ?_⟩, opened (by rwa [whole])⟩
      · simpa using fun slash => absurd slash noSlash
      · simpa using fun slash => absurd slash noSlash

theorem childMeaning_definable (opened : Opened inside) (plain : ∀ c ∈ name, isBlank c = false)
    (meant : childMeaning inside name = .ok m) (found : qualified inside name = some label) : Definable label := by
  have nonempty : name ≠ [] := by
    rintro rfl
    cases meant
  obtain ⟨named, before, after⟩ := qualified_parts opened found
  refine ⟨named, qualified_plain opened plain found, fun _ => before, ?_⟩
  rw [after]
  exact fun _ => nonempty

theorem meaning_named (meant : lexeme.meaning location inside known = .ok m) (named : m.kind.isNamed = true) :
    (∃ rest implied, lexeme = .word '@' rest ∧ m.kind = .parentLabel (String.ofList rest) implied) ∨
      ∃ rest label, lexeme = .word '&' rest ∧ qualified inside rest = some label ∧ m.kind = .childLabel label := by
  cases lexeme with
  | blank text =>
    cases meant
    cases named
  | comment text closed =>
    cases closed <;> cases meant
    cases named
  | bracket c =>
    cases meant
    unfold bracketMeaning at named
    split_ifs at named <;> cases named
  | word first rest =>
    rcases wordMeaning_ok meant with ⟨rune, found, meant⟩ | ⟨_, meant⟩
    · obtain ⟨isParent, isChild⟩ := ofChar?_at found
      cases rune <;> simp only [runeMeaning] at meant
      case parentLabel =>
        obtain rfl := isParent.mp rfl
        obtain ⟨implied, _, kind, _⟩ := parentMeaning_ok meant
        exact .inl ⟨rest, implied, rfl, kind⟩
      case childLabel =>
        obtain rfl := isChild.mp rfl
        obtain ⟨label, qualifies, rfl⟩ := childMeaning_ok meant
        exact .inr ⟨rest, label, rfl, qualifies, rfl⟩
      case reference =>
        obtain ⟨_, rfl⟩ := referenceMeaning_ok meant
        cases named
      case inclusion | macroDefinition =>
        rw [namedMeaning_ok meant] at named
        cases named
      case rawText =>
        cases meant
        cases named
      all_goals
        obtain ⟨_, _, rfl⟩ := numberMeaning_ok meant
        cases named
    · rcases plainMeaning_ok meant with ⟨_, rfl⟩ | ⟨_, _, rfl⟩ | meant
      · cases named
      · cases named
      · obtain ⟨_, rfl⟩ := referenceMeaning_ok meant
        cases named

end Lexeme

-- The word of a reference without its rune; a call has none.
def Reference.word (r : Reference) (text : String) : List Char :=
  if r.form = .call then text.toList else text.toList.tail

namespace Lexeme

variable {inside : Option String} {lexeme : Lexeme} {label : String} {target : List Char}

theorem meaning_refers {location : Location} {known : String → Bool} {m : Meaning} {r : Reference}
    (meant : lexeme.meaning location inside known = .ok m) (kind : m.kind = .reference r) (named : r.target = .named label) :
    ∃ first, referenceMeaning inside r.form first (r.word (String.ofList lexeme.text)) = .ok m := by
  cases lexeme with
  | blank text =>
    cases meant
    cases kind
  | comment text closed =>
    cases closed <;> cases meant
    cases kind
  | bracket c =>
    cases meant
    unfold bracketMeaning at kind
    split_ifs at kind
    cases kind
    cases named
  | word first rest =>
    rcases wordMeaning_ok meant with ⟨rune, found, meant⟩ | ⟨_, meant⟩
    · cases rune <;> simp only [runeMeaning] at meant
      case reference form =>
        have noCall : form ≠ .call := by
          unfold Rune.ofChar? at found
          split at found <;> cases found <;> decide
        obtain ⟨target, rfl⟩ := referenceMeaning_ok meant
        cases kind
        exact ⟨first, by simpa [Reference.word, ReferenceForm.to, text, noCall] using meant⟩
      case parentLabel =>
        obtain ⟨_, _, other, _⟩ := parentMeaning_ok meant
        rw [other] at kind
        cases kind
      case childLabel =>
        obtain ⟨_, _, rfl⟩ := childMeaning_ok meant
        cases kind
      case inclusion | macroDefinition =>
        rw [namedMeaning_ok meant] at kind
        cases kind
      case rawText =>
        cases meant
        cases kind
      all_goals
        obtain ⟨_, _, rfl⟩ := numberMeaning_ok meant
        cases kind
    · rcases plainMeaning_ok meant with ⟨_, rfl⟩ | ⟨_, _, rfl⟩ | meant
      · cases kind
      · cases kind
      · obtain ⟨target, rfl⟩ := referenceMeaning_ok meant
        cases kind
        exact ⟨first, by simpa [Reference.word, ReferenceForm.to, text] using meant⟩

-- Nothing stands after the first slash of the name that is meant.
def isHalf (target : List Char) : Bool :=
  target = ['&'] ∨ target.head? ≠ some '&' ∧ target.dropWhile (· ≠ '/') = ['/']

structure Refers (target : List Char) (label : String) : Prop where
  nonempty : label ≠ ""
  plain : Plain label
  before : '/' ∈ label.toList → label.toList.takeWhile (· ≠ '/') ≠ []
  half : isHalf target = true ↔ label.toList.dropWhile (· ≠ '/') = ['/']

theorem dropWhile_eq_slash {chars : List Char} :
    chars.dropWhile (· ≠ '/') = ['/'] ↔ '/' ∈ chars ∧ (chars.dropWhile (· ≠ '/')).tail = [] := by
  constructor
  · intro last
    exact ⟨(List.dropWhile_sublist _).subset (last ▸ List.mem_singleton_self _), by rw [last]; rfl⟩
  · rintro ⟨slash, nothing⟩
    obtain ⟨front, back, rfl, slashless⟩ := List.eq_append_cons_of_mem slash
    rw [dropWhile_slash slashless] at nothing ⊢
    exact congrArg _ nothing

theorem refers_of_meaning {form : ReferenceForm} {first : Char} {m : Meaning} {r : Reference} (opened : Opened inside)
    (plain : ∀ c ∈ target, isBlank c = false) (meant : referenceMeaning inside form first target = .ok m)
    (kind : m.kind = .reference r) (named : r.target = .named label) : Refers target label := by
  unfold referenceMeaning at meant
  split at meant
  · cases meant
  · cases meant
    cases kind
    cases named
  · rename_i c rest _
    have restPlain : ∀ d ∈ rest, isBlank d = false := fun d member => plain d (List.mem_cons_of_mem _ member)
    split at meant
    · rename_i relative
      split at meant
      · cases meant
      · rename_i found
        cases meant
        cases kind
        cases named
        obtain ⟨nonempty, before, after⟩ := qualified_parts opened found
        refine ⟨nonempty, qualified_plain opened restPlain found, fun _ => before, ?_⟩
        rw [after]
        rcases relative with rfl | rfl
        · simp [isHalf]
        · simp [isHalf]
    · rename_i unscoped
      obtain ⟨noSlash, noChild⟩ := not_or.mp unscoped
      cases meant
      cases kind
      cases named
      refine ⟨String.ofList_eq_empty_iff.not.mpr (List.cons_ne_nil _ _), plain_ofList.mpr plain, ?_, ?_⟩
      · rw [String.toList_ofList, List.takeWhile_cons_of_pos (by simpa using noSlash)]
        exact fun _ => List.cons_ne_nil _ _
      · simp [isHalf, noChild]

-- What a lexeme that can be read declares.
theorem definable_of_meaning {location : Location} {known : String → Bool} {m : Meaning} (opened : Opened inside)
    (proper : lexeme.Proper) (meant : lexeme.meaning location inside known = .ok m) (named : m.kind.isNamed = true)
    (labelled : m.kind.label? = some label) : Definable label := by
  rcases meaning_named meant named with ⟨rest, implied, rfl, kind⟩ | ⟨rest, name, rfl, found, kind⟩
  · rw [kind] at labelled
    cases labelled
    exact (parentMeaning_definable (fun c member => proper.2.2 c (List.mem_cons_of_mem _ member)) meant).1
  · rw [kind] at labelled
    cases labelled
    exact childMeaning_definable opened (fun c member => proper.2.2 c (List.mem_cons_of_mem _ member)) meant found

theorem scopeAfter_opened {location : Location} {known : String → Bool} {m : Meaning} (opened : Opened inside)
    (proper : lexeme.Proper) (meant : lexeme.meaning location inside known = .ok m) : Opened (lexeme.scopeAfter inside) := by
  cases lexeme with
  | word first rest =>
    simp only [scopeAfter]
    split
    · rename_i found
      obtain rfl := (ofChar?_at found).1.mp rfl
      exact (parentMeaning_definable (fun c member => proper.2.2 c (List.mem_cons_of_mem _ member)) meant).2
    · exact opened
  | _ => exact opened

end Lexeme

namespace Reader

variable {r next : Reader} {lexeme : Lexeme} {lexemes : List Lexeme} {t : Token} {label : String}

-- The mark is what one of the lexemes says in a scope with a name that labels can have.
def Read (lexemes : List Lexeme) (mark : Mark) : Prop :=
  ∃ lexeme ∈ lexemes, ∃ inside location known m, Opened inside ∧ lexeme.meaning location inside known = .ok m ∧
    mark.text = String.ofList lexeme.text ∧ mark.kind = some m.kind.bare

theorem step_read (opened : Opened r.parent) (proper : lexeme.Proper) (ran : r.step lexeme = .ok next) :
    Opened next.parent ∧ ∀ mark ∈ next.marks, mark ∈ r.marks ∨ Read [lexeme] mark := by
  obtain ⟨mid, line, column, taken, rfl, _⟩ := step_eq_ok ran
  have adds := (take_adds r proper).ok taken
  have meant : ∃ m, lexeme.meaning r.location r.parent r.symbols.contains = .ok m := by
    rw [take_eq r proper] at taken
    cases meaning : lexeme.meaning r.location r.parent r.symbols.contains with
    | ok m => exact ⟨m, rfl⟩
    | error fault =>
      rw [meaning] at taken
      cases taken
  obtain ⟨m, meant⟩ := meant
  refine ⟨?_, ?_⟩
  · change Opened mid.parent
    rw [adds.parent]
    exact Lexeme.scopeAfter_opened opened proper meant
  · intro mark member
    change mark ∈ mid.marks at member
    rw [adds.marks] at member
    refine (List.mem_append.mp member).imp_right ?_
    intro last
    rw [List.mem_singleton.mp last]
    exact ⟨lexeme, List.mem_singleton_self _, _, _, _, m, opened, meant, rfl, Lexeme.kind?_of_meaning meant⟩

theorem each_read (opened : Opened r.parent) (proper : ∀ lexeme ∈ lexemes, lexeme.Proper)
    (ran : Run.each step r lexemes = .ok next) :
    Opened next.parent ∧ ∀ mark ∈ next.marks, mark ∈ r.marks ∨ Read lexemes mark := by
  induction lexemes generalizing r with
  | nil =>
    cases ran
    exact ⟨opened, fun mark member => .inl member⟩
  | cons lexeme rest ih =>
    rw [each_cons] at ran
    obtain ⟨mid, first, later⟩ := andThen_eq_ok ran
    obtain ⟨midOpened, here⟩ := step_read opened (proper lexeme List.mem_cons_self) first
    obtain ⟨nextOpened, there⟩ := ih midOpened (fun other member => proper other (List.mem_cons_of_mem _ member)) later
    refine ⟨nextOpened, ?_⟩
    intro mark member
    rcases there mark member with early | ⟨other, among, told⟩
    · rcases here mark early with old | ⟨other, among, told⟩
      · exact .inl old
      · exact .inr ⟨other, List.mem_cons.mpr (.inl (List.mem_singleton.mp among)), told⟩
    · exact .inr ⟨other, List.mem_cons_of_mem _ among, told⟩

theorem run_read (frames : r.frames = []) (latest : r.latest = #[]) (opened : Opened r.parent) (ran : r.run = .ok next) :
    Opened next.parent ∧ ∀ t ∈ next.tokens.toList, Read (Lexeme.all r.source) t.mark := by
  have none : r.marks = [] := by
    rw [marks, tokens_toList, frames, latest]
    rfl
  obtain ⟨nextOpened, read⟩ := each_read opened (Lexeme.all_proper r.source) (run_eq_ok ran).1
  refine ⟨nextOpened, ?_⟩
  intro t member
  rcases read t.mark (List.mem_map_of_mem member) with old | new
  · rw [none] at old
    cases old
  · exact new

theorem bare_isNamed (kind : TokenKind) : kind.bare.isNamed = kind.isNamed := by
  cases kind with
  | reference ref => cases target : ref.target <;> simp [TokenKind.bare, TokenKind.isNamed, target]
  | _ => rfl

theorem bare_label? {kind : TokenKind} (named : kind.isNamed = true) : kind.bare.label? = kind.label? := by
  cases kind <;> first | rfl | cases named

theorem reference_of_bare {kind : TokenKind} {ref : Reference} (bare : kind.bare = .reference ref)
    (named : ref.target = .named label) : kind = .reference ref := by
  cases kind with
  | reference other =>
    cases target : other.target with
    | named name => simpa [TokenKind.bare, target] using bare
    | inline name =>
      simp only [TokenKind.bare, target] at bare
      cases bare
      cases named
  | _ => cases bare

theorem definable_of_declarable (declarable : Declarable label) : Definable label := by
  obtain ⟨r, next, ⟨frames, latest, opened⟩, ran, t, member, named, labelled⟩ := declarable
  obtain ⟨lexeme, among, inside, location, known, m, scope, meant, _, told⟩ := (run_read frames latest opened ran).2 t member
  have bare : t.kind.bare = m.kind.bare := Option.some.inj told
  have meansNamed : m.kind.isNamed = true := by rw [← bare_isNamed, ← bare, bare_isNamed, named]
  exact Lexeme.definable_of_meaning scope (Lexeme.all_proper r.source lexeme among) meant meansNamed
    (by rw [← bare_label? meansNamed, ← bare, bare_label? named, labelled])

theorem all_label {name : List Char} (plain : ∀ c ∈ name, isBlank c = false) :
    Lexeme.all ('@' :: name) = [.word '@' name] := by
  have word : Lexeme.next '@' name = (.word '@' name, []) := by
    have whole : name.takeWhile (!isBlank ·) = name := List.takeWhile_eq_self_iff.mpr (by simpa using plain)
    have nothing : name.dropWhile (!isBlank ·) = [] := List.dropWhile_eq_nil_iff.mpr (by simpa using plain)
    rw [Lexeme.next, if_neg (by decide), if_neg (by decide), if_neg (by decide), whole, nothing]
  rw [Lexeme.all, word, Lexeme.all]

theorem define_new (r : Reader) (name : String) (anonymous : Bool) (new : name ∉ r.symbols.names) :
    ∃ symbols journal, r.define name anonymous = .ok { r with symbols, journal } ∧
      symbols.names = r.symbols.names ++ [name] := by
  have defined := SymbolTable.define_of_not_mem r.location anonymous new
  exact ⟨_, _, by rw [define, defined], SymbolTable.names_define defined⟩

-- Over an empty table nothing is in the way of a label and of the parent that it implies.
theorem parentLabel_ok (text : List Char) {name : List Char} (empty : r.symbols = {})
    (definable : Definable (String.ofList name)) :
    ∃ scope symbols journal implied, r.parentLabel text name = .ok { r with
      scope, symbols, journal
      latest := r.latest.push (r.token text (.parentLabel (String.ofList name) implied))
      nextId := r.nextId + 1 } := by
  have nonempty : name ≠ [] := String.ofList_eq_empty_iff.not.mp definable.nonempty
  have none : r.symbols.names = [] := by rw [empty]; rfl
  unfold parentLabel
  dsimp only
  rw [if_neg (by simpa using nonempty)]
  by_cases slash : '/' ∈ name
  · have parent : name.takeWhile (· ≠ '/') ≠ [] := by simpa using definable.before (by simpa using slash)
    have child : (name.dropWhile (· ≠ '/')).tail ≠ [] := by simpa using definable.after (by simpa using slash)
    have unknown : ¬ r.symbols.contains (String.ofList (name.takeWhile (· ≠ '/'))) = true := by
      rw [SymbolTable.contains_iff, none]
      exact List.not_mem_nil
    have other : String.ofList name ≠ String.ofList (name.takeWhile (· ≠ '/')) := by
      intro same
      apply slash_not_mem_takeWhile name
      rw [← String.ofList_inj.mp same]
      exact slash
    have halves : ¬ ((name.takeWhile (· ≠ '/')).isEmpty || ((name.dropWhile (· ≠ '/')).drop 1).isEmpty) = true := by
      simp only [Bool.or_eq_true, List.isEmpty_iff, not_or, List.drop_one]
      exact ⟨parent, child⟩
    rw [if_pos (by simpa using slash), if_neg halves, if_neg unknown]
    obtain ⟨symbols, journal, declared, names⟩ := define_new r (String.ofList (name.takeWhile (· ≠ '/'))) false
      (by rw [none]; exact List.not_mem_nil)
    have new : String.ofList name ∉ symbols.names := by
      rw [names, none]
      simpa using other
    rw [declared]
    obtain ⟨later, notes, defined, _⟩ := define_new
      (({ r with symbols, journal } : Reader).enter (String.ofList (name.takeWhile (· ≠ '/')))) (String.ofList name) false new
    exact ⟨_, later, notes, _, by rw [andThen_ok, defined]; rfl⟩
  · rw [if_neg (by simpa using slash)]
    have new : String.ofList name ∉ r.symbols.names := by
      rw [none]
      exact List.not_mem_nil
    obtain ⟨symbols, journal, declared, _⟩ := define_new (r.enter (String.ofList name)) (String.ofList name) false new
    exact ⟨_, symbols, journal, _, by rw [declared]; rfl⟩

-- The text declares the name and nothing else.
theorem declarable_iff : Declarable label ↔ Definable label := by
  refine ⟨definable_of_declarable, ?_⟩
  intro definable
  let start : Reader :=
    { file := "", source := '@' :: label.toList, checkComments := false, scope := {}, symbols := {}, journal := []
      nextId := 0 }
  have named : Definable (String.ofList label.toList) := by rwa [String.ofList_toList]
  obtain ⟨scope, symbols, journal, implied, read⟩ := parentLabel_ok (r := start) ('@' :: label.toList) rfl named
  rw [String.ofList_toList] at read
  generalize reached : ({ start with
    scope, symbols, journal
    latest := start.latest.push (start.token ('@' :: label.toList) (.parentLabel label implied))
    nextId := start.nextId + 1 } : Reader) = mid at read
  obtain ⟨line, column, moved⟩ := foldl_advance ('@' :: label.toList) mid
  have stepped : start.step (.word '@' label.toList) = .ok { mid with line, column } := by
    have taken : start.take (.word '@' label.toList) = .ok mid := read
    rw [step, taken, ← moved]
    rfl
  have frames : mid.frames = [] := by rw [← reached]
  have ran : start.run = .ok { mid with line, column } := by
    rw [run, all_label definable.plain, each_cons, stepped]
    simp [finish, frames]
  refine ⟨start, _, ⟨rfl, rfl, opened_none⟩, ran, ?_⟩
  refine ⟨start.token ('@' :: label.toList) (.parentLabel label implied), ?_, rfl, rfl⟩
  rw [tokens_toList, ← reached]
  simp [outside]

-- A reference is told from a possible name of a label by its word alone.
theorem references_definable_unless_half (file : String) (source : List Char) (checkComments : Bool) (scope : Scope)
    (symbols : SymbolTable) (journal : Journal) (nextId : Nat) (opened : Opened (scope.parent.map (·.1))) (next : Reader)
    (ran : ({ file, source, checkComments, scope, symbols, journal, nextId } : Reader).run = .ok next) :
    Opened (next.scope.parent.map (·.1)) ∧
    ∀ t ∈ next.tokens.toList, ∀ r label, t.kind = .reference r → r.target = .named label →
      label ≠ "" ∧ Plain label ∧
      ('/' ∈ label.toList → label.toList.takeWhile (· ≠ '/') ≠ []) ∧
      (('/' ∈ label.toList → (label.toList.dropWhile (· ≠ '/')).tail ≠ []) ↔ Lexeme.isHalf (r.word t.text) = false) ∧
      (Declarable label ↔ Lexeme.isHalf (r.word t.text) = false) := by
  let start : Reader := { file, source, checkComments, scope, symbols, journal, nextId }
  obtain ⟨nextOpened, read⟩ := run_read (r := start) rfl rfl opened ran
  refine ⟨nextOpened, ?_⟩
  intro t member r label kind named
  obtain ⟨lexeme, among, inside, _, _, m, inScope, meant, text, told⟩ := read t member
  have bare : m.kind.bare = .reference r := by
    rw [← Option.some.inj told]
    simp [kind, TokenKind.bare, named]
  have means := reference_of_bare bare named
  obtain ⟨_, refersTo⟩ := Lexeme.meaning_refers meant means named
  have solid : lexeme.isSpacing = false := by
    cases lexeme with
    | blank text =>
      cases meant
      cases means
    | comment text closed =>
      cases closed <;> cases meant
      cases means
    | bracket c => rfl
    | word first rest => rfl
  have plain : ∀ c ∈ r.word (String.ofList lexeme.text), isBlank c = false := by
    intro c member
    apply Lexeme.not_blank_of_solid (Lexeme.all_proper source lexeme among) solid
    unfold Reference.word at member
    split at member
    · simpa using member
    · simpa using List.mem_of_mem_tail member
  have refers := Lexeme.refers_of_meaning inScope plain refersTo means named
  rw [← text] at refers
  have after : ('/' ∈ label.toList → (label.toList.dropWhile (· ≠ '/')).tail ≠ []) ↔
      Lexeme.isHalf (r.word t.text) = false := by
    rw [Bool.eq_false_iff, ne_eq, ← not_and]
    exact not_congr (refers.half.trans Lexeme.dropWhile_eq_slash).symm
  refine ⟨refers.nonempty, refers.plain, refers.before, after, ?_⟩
  rw [declarable_iff]
  constructor
  · exact fun definable => after.mp definable.after
  · exact fun whole => ⟨refers.nonempty, refers.plain, refers.before, after.mpr whole⟩

-- Both references are read in the scope of the same label.
theorem references_definable_unless_half_scoped :
    ∃ next t u, (Reader.run ⟨"<input>", "@p ;/ ;/c".toList, true, {}, {}, [], 0, 1, 1, [], #[]⟩) = .ok next ∧
      t ∈ next.tokens.toList ∧ t.kind = .reference (ReferenceForm.literalAbsolute.to (.named "p/")) ∧ ¬ Declarable "p/" ∧
      u ∈ next.tokens.toList ∧ u.kind = .reference (ReferenceForm.literalAbsolute.to (.named "p/c")) ∧
      Declarable "p/c" := by
  let start : Reader := ⟨"<input>", "@p ;/ ;/c".toList, true, {}, {}, [], 0, 1, 1, [], #[]⟩
  obtain ⟨next, found⟩ := Option.isSome_iff_exists.mp (by decide +kernel : start.run.toOption.isSome = true)
  have ran : start.run = .ok next := eq_ok_of_toOption found
  have tokens : next.tokens.toList.map (fun t => (t.text, t.kind)) =
      [("@p", .parentLabel "p" none), (" ", .blank), (";/", .reference (ReferenceForm.literalAbsolute.to (.named "p/"))),
        (" ", .blank), (";/c", .reference (ReferenceForm.literalAbsolute.to (.named "p/c")))] := by
    have state : start.run.state = next := congrArg Run.state ran
    rw [← state]
    decide +kernel
  have written (text label : String) (member : (text, .reference (ReferenceForm.literalAbsolute.to (.named label))) ∈
      next.tokens.toList.map fun t => (t.text, t.kind)) : ∃ t ∈ next.tokens.toList, t.text = text ∧
        t.kind = .reference (ReferenceForm.literalAbsolute.to (.named label)) := by
    obtain ⟨t, there, same⟩ := List.mem_map.mp member
    exact ⟨t, there, congrArg Prod.fst same, congrArg Prod.snd same⟩
  obtain ⟨t, half, halfText, halfKind⟩ := written ";/" "p/" (by rw [tokens]; simp)
  obtain ⟨u, whole, wholeText, wholeKind⟩ := written ";/c" "p/c" (by rw [tokens]; simp)
  obtain ⟨_, references⟩ :=
    references_definable_unless_half "<input>" "@p ;/ ;/c".toList true {} {} [] 0 opened_none next ran
  refine ⟨next, t, u, ran, half, halfKind, ?_, whole, wholeKind, ?_⟩
  · rw [(references t half _ "p/" halfKind rfl).2.2.2.2, halfText]
    decide +kernel
  · rw [(references u whole _ "p/c" wholeKind rfl).2.2.2.2, wholeText]
    decide +kernel

-- The name has nothing after its slash.
theorem half_reference_accepted :
    ¬ ∀ (source : List Char) (next : Reader),
      (Reader.run ⟨"<input>", source, true, {}, {}, [], 0, 1, 1, [], #[]⟩) = .ok next →
      ∀ t ∈ next.tokens.toList, ∀ r label, t.kind = .reference r → r.target = .named label → Definable label := by
  intro all
  let start : Reader := ⟨"<input>", "@p ;/".toList, true, {}, {}, [], 0, 1, 1, [], #[]⟩
  obtain ⟨next, found⟩ := Option.isSome_iff_exists.mp (by decide +kernel : start.run.toOption.isSome = true)
  have ran : start.run = .ok next := eq_ok_of_toOption found
  have state : start.run.state = next := congrArg Run.state ran
  have member : TokenKind.reference (ReferenceForm.literalAbsolute.to (.named "p/")) ∈ next.tokens.toList.map (·.kind) := by
    rw [← state]
    decide +kernel
  obtain ⟨t, there, kind⟩ := List.mem_map.mp member
  have definable := all _ next ran t there _ "p/" kind rfl
  exact definable.after (by decide) (by decide)

end Reader

end RuneAsm
