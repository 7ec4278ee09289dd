import Mathlib
import RuneAsm.Proofs.Declarations
import RuneAsm.Proofs.Declaring

namespace RuneAsm

open Run

-- Names and the names they belong to. A label with a slash belongs to the part before the slash. Reading declares it
-- only where that part is declared by then, and opens a scope only under a name that is declared and belongs to no
-- other. This holds of whatever a reading leaves, also where it stops between opening a scope and declaring a label.

variable {front back : List Char}

theorem slash_not_mem_takeWhile (chars : List Char) : '/' ∉ chars.takeWhile (· ≠ '/') := by
  intro member
  have differs := List.mem_takeWhile_imp member
  simp at differs

theorem takeWhile_slash (slashless : '/' ∉ front) : (front ++ '/' :: back).takeWhile (· ≠ '/') = front := by
  rw [List.takeWhile_append_of_pos]
  · simp
  · intro c member
    simp only [decide_eq_true_eq]
    rintro rfl
    exact slashless member

theorem dropWhile_slash (slashless : '/' ∉ front) : (front ++ '/' :: back).dropWhile (· ≠ '/') = '/' :: back := by
  rw [List.dropWhile_append_of_pos]
  · simp
  · intro c member
    simp only [decide_eq_true_eq]
    rintro rfl
    exact slashless member

namespace SymbolTable

variable {t next : SymbolTable} {name : String} {location : Location} {anonymous : Bool}

-- A label with a name of its own, other than the end of an inline subroutine.
def Named (t : SymbolTable) (name : String) : Prop := ∃ s, t.find? name = some s ∧ s.anonymous = false

-- Blanks tell the two kinds of labels apart, so a name says of which kind its entry is.
structure ParentClosed (t : SymbolTable) : Prop where
  distinct : t.Distinct
  blanks : ∀ s ∈ t.entries, s.anonymous = true ↔ ¬ Plain s.name
  parents : ∀ name ∈ t.names, Plain name → ∀ parent, parentOf name = some parent → parent ∈ t.names

theorem parentClosed_empty : ParentClosed {} := ⟨List.nodup_nil, by simp, by simp [names]⟩

theorem ParentClosed.named_iff (closed : t.ParentClosed) : t.Named name ↔ name ∈ t.names ∧ Plain name := by
  constructor
  · rintro ⟨s, found, flag⟩
    refine ⟨find?_isSome.mp ⟨s, found⟩, ?_⟩
    have kind := closed.blanks s (List.mem_of_find?_eq_some found)
    rw [name_of_find? found, flag] at kind
    simpa using kind
  · rintro ⟨member, plain⟩
    obtain ⟨s, found⟩ := find?_isSome.mpr member
    refine ⟨s, found, ?_⟩
    have kind := closed.blanks s (List.mem_of_find?_eq_some found)
    rw [name_of_find? found] at kind
    simpa [plain] using kind

theorem ParentClosed.define (closed : t.ParentClosed) (defined : t.define name location anonymous = .ok next)
    (blank : anonymous = true ↔ ¬ Plain name)
    (parent : Plain name → ∀ parent, parentOf name = some parent → parent ∈ t.names) : next.ParentClosed := by
  have grown := names_define defined
  refine ⟨distinct_define closed.distinct defined, ?_, ?_⟩
  · intro s member
    rw [(define_ok_iff.mp defined).2] at member
    rcases List.mem_append.mp member with old | new
    · exact closed.blanks s old
    · rw [List.mem_singleton.mp new]
      exact blank
  · intro other member plain above found
    rw [grown] at member ⊢
    apply List.mem_append_left
    rcases List.mem_append.mp member with old | new
    · exact closed.parents other old plain above found
    · rw [List.mem_singleton.mp new] at plain found
      exact parent plain above found

theorem mem_names_erase {other : String} : other ∈ (t.erase name).names ↔ other ∈ t.names ∧ other ≠ name := by
  simp [names_erase]

-- The label of an inline subroutine is the parent of no name.
theorem ParentClosed.erase (closed : t.ParentClosed) (blank : ¬ Plain name) : (t.erase name).ParentClosed where
  distinct := distinct_erase closed.distinct
  blanks s member := closed.blanks s (List.mem_of_mem_filter member)
  parents other member plain parent found := by
    have there := closed.parents other (mem_names_erase.mp member).1 plain parent found
    refine mem_names_erase.mpr ⟨there, ?_⟩
    rintro rfl
    exact blank (plain_parentOf plain found)

end SymbolTable

-- The open parent is declared, by a word, and belongs to no other name.
def Scope.Rooted (t : SymbolTable) (scope : Scope) : Prop :=
  ∀ name location, scope.parent = some (name, location) → name ∈ t.names ∧ Plain name ∧ parentOf name = none

namespace Scope.Rooted

variable {t next : SymbolTable} {scope : Scope}

theorem fresh (t : SymbolTable) : Scope.Rooted t {} := by
  rintro name location ⟨⟩

theorem mono (rooted : scope.Rooted t) (kept : ∀ name ∈ t.names, Plain name → name ∈ next.names) : scope.Rooted next := by
  intro name location found
  obtain ⟨member, plain, top⟩ := rooted name location found
  exact ⟨kept name member plain, plain, top⟩

theorem inScope (rooted : scope.Rooted t) : Reader.InScope scope := fun parent found => (rooted parent.1 parent.2 found).2.1

end Scope.Rooted

-- Where these names are declared, the label may be: its parent is there, and the scope that it opens is that of a
-- name which is there or of the label itself.
structure Declaration.Fits (names : List String) (d : Declaration) : Prop where
  blank : d.anonymous = true ↔ ¬ Plain d.name
  parent : Plain d.name → ∀ parent, parentOf d.name = some parent → parent ∈ names
  enters : ∀ name, d.enters = some name → Plain name ∧ parentOf name = none ∧ (name ∈ names ∨ name = d.name)

def Declaration.AllFit : List String → List Declaration → Prop
  | _, [] => True
  | names, d :: ds => d.Fits names ∧ AllFit (names ++ [d.name]) ds

namespace Lexeme

variable {location : Location} {parent : Option String} {symbols : SymbolTable} {lexeme : Lexeme} {m : Meaning}

theorem parentMeaning_fits {name : List Char} (plain : ∀ c ∈ name, isBlank c = false)
    (meant : parentMeaning symbols.contains name = .ok m) : Declaration.AllFit symbols.names m.declares := by
  have labelPlain : Plain (String.ofList name) := plain_ofList.mpr plain
  unfold parentMeaning at meant
  dsimp only at meant
  split at meant
  · cases meant
  · split at meant
    · rename_i slash
      have above : parentOf (String.ofList name) = some (String.ofList (name.takeWhile (· ≠ '/'))) := by
        rw [parentOf, String.toList_ofList, if_pos slash]
      have abovePlain := plain_parentOf labelPlain above
      have top := parentOf_parentOf above
      generalize String.ofList (name.takeWhile (· ≠ '/')) = parentName at meant above abovePlain top
      have fits {names : List String} (known : parentName ∈ names) :
          Declaration.Fits names { enters := some parentName, name := String.ofList name } := by
        refine ⟨by simp [labelPlain], ?_, ?_⟩
        · intro _ parent found
          rw [above] at found
          cases found
          exact known
        · rintro entered ⟨⟩
          exact ⟨abovePlain, top, .inl known⟩
      split at meant
      · cases meant
      · split at meant
        · rename_i known
          cases meant
          exact ⟨fits (SymbolTable.contains_iff.mp known), trivial⟩
        · cases meant
          refine ⟨⟨by simp [abovePlain], by simp [top], by simp⟩, fits (by simp), trivial⟩
    · rename_i noSlash
      have none : parentOf (String.ofList name) = none := by rw [parentOf, String.toList_ofList, if_neg noSlash]
      cases meant
      refine ⟨⟨by simp [labelPlain], by simp [none], ?_⟩, trivial⟩
      rintro entered ⟨⟩
      exact ⟨labelPlain, none, .inr rfl⟩

theorem parentOf_qualified {above label : String} {name : List Char} (top : parentOf above = none)
    (found : qualified (some above) name = some label) : parentOf label = some above := by
  cases found
  have slashless : '/' ∉ above.toList := by simpa [parentOf] using top
  have text : (s!"{above}/{String.ofList name}").toList = above.toList ++ '/' :: name := by simp [toString]
  rw [parentOf, text, takeWhile_slash slashless]
  simp

theorem childMeaning_fits {scope : Scope} {name : List Char} (rooted : scope.Rooted symbols)
    (plain : ∀ c ∈ name, isBlank c = false) (meant : childMeaning (scope.parent.map (·.1)) name = .ok m) :
    Declaration.AllFit symbols.names m.declares := by
  unfold childMeaning at meant
  split at meant
  · cases meant
  · split at meant
    · cases meant
    · rename_i label found
      cases meant
      cases opened : scope.parent with
      | none =>
        rw [opened] at found
        cases found
      | some entry =>
        obtain ⟨above, location⟩ := entry
        obtain ⟨known, abovePlain, top⟩ := rooted above location opened
        rw [opened] at found
        have belongs : parentOf label = some above := parentOf_qualified top found
        have labelPlain : Plain label := by
          apply plain_qualify rooted.inScope (plain_ofList.mpr plain)
          rw [Scope.qualify, opened]
          exact found
        refine ⟨⟨by simp [labelPlain], ?_, by simp⟩, trivial⟩
        intro _ parent parented
        rw [belongs] at parented
        cases parented
        exact known

-- Labels are declared by the two words for them and by the brace that ends a subroutine.
theorem meaning_fits {scope : Scope} (rooted : scope.Rooted symbols) (proper : lexeme.Proper)
    (meant : lexeme.meaning location (scope.parent.map (·.1)) symbols.contains = .ok m) :
    Declaration.AllFit symbols.names m.declares := by
  have labels := (meaning_labels proper meant).declared
  have silent (none : lexeme.labels location (scope.parent.map (·.1)) symbols.contains = []) :
      Declaration.AllFit symbols.names m.declares := by
    rw [none, List.map_eq_nil_iff] at labels
    rw [labels]
    trivial
  cases lexeme with
  | blank text => exact silent rfl
  | comment text closed => exact silent rfl
  | bracket c =>
    by_cases brace : c = '\x7d'
    · subst brace
      cases meant
      exact ⟨⟨by simp [anonymousLabel_not_plain], fun plain => absurd plain (anonymousLabel_not_plain _), by simp⟩, trivial⟩
    · exact silent (by simp [Lexeme.labels, brace])
  | word first rest =>
    have plain : ∀ c ∈ rest, isBlank c = false := fun c member => proper.2.2 c (List.mem_cons_of_mem _ member)
    by_cases above : first = '@'
    · subst above
      exact parentMeaning_fits plain meant
    · by_cases child : first = '&'
      · subst child
        exact childMeaning_fits rooted plain meant
      · exact silent (by simp [Lexeme.labels, above, child])

end Lexeme

namespace Reader

variable {start r : Reader} {d : Declaration} {ds : List Declaration} {text : List Char} {lexeme : Lexeme}

-- What holds of every state that a reading goes through, and of the one in which it stops.
structure Rooted (start r : Reader) : Prop where
  table : r.symbols.ParentClosed
  scope : r.scope.Rooted r.symbols
  kept : start.symbols.names ⊆ r.symbols.names
  serials : start.nextId ≤ r.nextId

theorem rooted_start (table : r.symbols.ParentClosed) (scope : r.scope.Rooted r.symbols) : Rooted r r :=
  ⟨table, scope, fun _ member => member, Nat.le_refl _⟩

theorem entered_rooted {t : SymbolTable} (rooted : r.scope.Rooted r.symbols) (fits : d.Fits r.symbols.names)
    (kept : r.symbols.names ⊆ t.names) (declared : d.name ∈ t.names) :
    (d.enters.elim r r.enter).scope.Rooted t := by
  cases entered : d.enters with
  | none => exact rooted.mono fun name member _ => kept member
  | some name =>
    obtain ⟨plain, top, there⟩ := fits.enters name entered
    rintro other location ⟨⟩
    refine ⟨?_, plain, top⟩
    rcases there with known | own
    · exact kept known
    · exact own ▸ declared

-- The scope is opened before the label is declared; where this fails, the label was declared before.
theorem declare_rooted (rooted : Rooted start r) (fits : d.Fits r.symbols.names) :
    Leaves (fun next => Rooted start next ∧ next.symbols.names = r.symbols.names ++ [d.name]) (Rooted start)
      (r.declare d) := by
  have same : (d.enters.elim r r.enter).symbols = r.symbols := by cases d.enters <;> rfl
  have serials : (d.enters.elim r r.enter).nextId = r.nextId := by cases d.enters <;> rfl
  unfold declare define
  split
  · rename_i symbols defined
    rw [same] at defined
    have grown := SymbolTable.names_define defined
    have more : r.symbols.names ⊆ symbols.names := by
      rw [grown]
      exact List.subset_append_left _ _
    refine ⟨⟨rooted.table.define defined fits.blank fits.parent, ?_, fun _ member => more (rooted.kept member), ?_⟩, grown⟩
    · exact entered_rooted rooted.scope fits more (by simp [grown])
    · exact serials ▸ rooted.serials
  · rename_i earlier refused
    rw [same] at refused
    have known : d.name ∈ r.symbols.names := by
      by_contra new
      rw [SymbolTable.define_of_not_mem _ _ new] at refused
      cases refused
    refine ⟨same ▸ rooted.table, ?_, same ▸ rooted.kept, serials ▸ rooted.serials⟩
    rw [same]
    exact entered_rooted rooted.scope fits (fun _ member => member) known

theorem declares_rooted (rooted : Rooted start r) (fit : Declaration.AllFit r.symbols.names ds) :
    Leaves (Rooted start) (Rooted start) (Run.each declare r ds) := by
  induction ds generalizing r with
  | nil => exact rooted
  | cons d ds ih =>
    apply (declare_rooted rooted fit.1).andThen
    rintro next ⟨reached, names⟩
    exact ih reached (names ▸ fit.2)

theorem accept_rooted {m : Meaning} (rooted : Rooted start r) (fit : Declaration.AllFit r.symbols.names m.declares) :
    Leaves (Rooted start) (Rooted start) (r.accept text m) := by
  have declared := declares_rooted rooted fit
  have longer (next : Reader) (reached : Rooted start next) (frames : List Frame) (latest : Array Token) :
      Rooted start { next with frames, latest, nextId := next.nextId + 1 } :=
    ⟨reached.table, reached.scope, reached.kept, Nat.le_succ_of_le reached.serials⟩
  unfold accept
  split
  · apply declared.andThen
    intro next reached
    unfold attach
    split
    · exact longer next reached _ _
    · exact longer next reached next.frames _
  · split
    · exact rooted
    · split
      · exact rooted
      · apply declared.andThen
        intro next reached
        exact longer next reached _ _

theorem step_rooted (rooted : Rooted start r) (proper : lexeme.Proper) :
    Leaves (Rooted start) (Rooted start) (r.step lexeme) := by
  have taken : Leaves (Rooted start) (Rooted start) (r.take lexeme) := by
    obtain ⟨journal, remarked⟩ := remark_frame r lexeme
    have noted : Rooted start { r with journal } := ⟨rooted.table, rooted.scope, rooted.kept, rooted.serials⟩
    rw [take_eq r proper, remarked]
    cases meant : lexeme.meaning r.location r.parent r.symbols.contains with
    | error fault => exact noted
    | ok m => exact accept_rooted noted (Lexeme.meaning_fits rooted.scope proper meant)
  unfold step
  cases ran : r.take lexeme with
  | error stop => exact taken.error ran
  | ok next =>
    have reached := taken.ok ran
    obtain ⟨line, column, moved⟩ := foldl_advance lexeme.text next
    change Rooted start (lexeme.text.foldl advance next)
    rw [moved]
    exact ⟨reached.table, reached.scope, reached.kept, reached.serials⟩

theorem run_rooted (table : r.symbols.ParentClosed) (scope : r.scope.Rooted r.symbols) : Rooted r r.run.state := by
  apply Leaves.state
  apply (leaves_each (rooted_start table scope)
    fun next lexeme member reached => step_rooted reached (Lexeme.all_proper r.source lexeme member)).andThen
  intro last reached
  unfold finish
  split
  · exact reached
  · exact reached

end Reader

end RuneAsm
