import Mathlib
import RuneAsm.Assembler
import RuneAsm.Proofs.Ends

namespace RuneAsm

open Run

-- One assembler for many programs. A call finds nothing of the calls before it, so it ends as it would on a new
-- assembler; the code is the whole image of the latest call or, when that call failed at whatever stage, empty. An
-- image that was written can be read back.

namespace Disk

variable {d : Disk} {place here : Place} {node : Node}

theorem lookup_put (d : Disk) (place here : Place) (node : Node) :
    (d.put place node).entries.lookup here = if here = place then some node else d.entries.lookup here := by
  have kept : (d.entries.filter (·.1 ≠ place)).lookup here = if here = place then none else d.entries.lookup here := by
    induction d.entries with
    | nil => simp
    | cons entry rest ih =>
      by_cases gone : entry.1 = place
      · rw [List.filter_cons_of_neg (by simpa using gone), ih]
        by_cases same : here = place
        · rw [if_pos same, if_pos same]
        · have differs : ¬ here = entry.1 := gone ▸ same
          rw [if_neg same, if_neg same, List.lookup_cons, beq_false_of_ne differs]
      · rw [List.filter_cons_of_pos (by simpa using gone), List.lookup_cons, List.lookup_cons, ih]
        by_cases first : here = entry.1
        · subst first
          simp [gone]
        · rw [beq_false_of_ne first]
  rw [put, List.lookup_append, kept]
  by_cases same : here = place
  · simp [same]
  · simp [same, List.lookup_cons, beq_false_of_ne same]

theorem node?_put_self (d : Disk) (place : Place) (node : Node) : (d.put place node).node? place = some node := by
  unfold node?
  rw [lookup_put, if_pos rfl]

-- Every place that had an entry has one afterwards.
theorem directory_put (other : here ≠ place) (directory : d.node? here = some .directory) :
    (d.put place node).node? here = some .directory := by
  unfold node? at directory ⊢
  rw [lookup_put, if_neg other]
  cases found : d.entries.lookup here with
  | some node =>
    rw [found] at directory
    exact directory
  | none =>
    rw [found] at directory
    dsimp only at directory ⊢
    rw [if_pos]
    have above : here.isPrefixOf d.workingDirectory = true ∨ ∃ entry ∈ d.entries, here.isPrefixOf entry.1 = true := by
      by_contra neither
      rw [if_neg (by simpa using neither)] at directory
      cases directory
    rcases above with working | ⟨entry, member, below⟩
    · simp [put, working]
    · by_cases gone : entry.1 = place
      · simp [put, ← gone, below]
      · have kept : entry ∈ (d.put place node).entries := by simp [put, member, gone]
        simp only [Bool.or_eq_true, List.any_eq_true]
        exact .inr ⟨entry, kept, below⟩

theorem step_put {name : String} {next : Place} (free : d.node? place ≠ some .directory)
    (stepped : d.step here name = .ok next) : (d.put place node).step here name = .ok next := by
  unfold step at stepped ⊢
  cases standing : d.node? here with
  | none => simp [standing] at stepped
  | some found =>
    cases found with
    | file content => simp [standing] at stepped
    | directory =>
      have other : here ≠ place := by
        rintro rfl
        exact free standing
      rw [standing] at stepped
      rw [directory_put other standing]
      exact stepped

theorem steps_put {names : List String} {last : Place} (free : d.node? place ≠ some .directory)
    (reached : names.foldlM d.step here = .ok last) : names.foldlM (d.put place node).step here = .ok last := by
  induction names generalizing here with
  | nil => exact reached
  | cons name names ih =>
    rw [List.foldlM_cons] at reached ⊢
    cases stepped : d.step here name with
    | error obstacle =>
      rw [stepped] at reached
      cases reached
    | ok next =>
      rw [stepped] at reached
      rw [step_put free stepped]
      exact ih reached

-- A path passes through directories only, none of which is the place of the new entry.
theorem follow_put {text : String} {last : Place} (reached : d.follow text = .ok last)
    (free : d.node? place ≠ some .directory) : (d.put place node).follow text = .ok last := by
  unfold follow at reached ⊢
  split at reached
  · cases reached
  · rename_i nonempty
    rw [if_neg nonempty]
    exact steps_put free reached

end Disk

namespace Assembler

variable {a b : Assembler}

-- The records are those of the whole program, from some table of labels, and the code is their whole image.
structure Complete (symbols : SymbolTable) (a : Assembler) : Prop where
  laid : ∃ resolved, ({ loadBase := a.settings.loadBase, symbols } : Layout).generate a.tokens = .ok resolved ∧
    a.records = resolved.records.toList ∧ a.symbols = resolved.symbols
  written : ∃ emission, ({} : Sink).emit a.settings.loadBase a.records = .ok emission ∧
    a.code = emission.sink.content

theorem emit_leaves (a : Assembler) (clean : a.code = #[]) :
    Leaves (fun b => ∃ code journal, b = { a with code, journal } ∧
        ∃ emission, ({} : Sink).emit a.settings.loadBase a.records = .ok emission ∧ code = emission.sink.content)
      (fun b => b.settings = a.settings ∧ b.code = #[]) a.emit := by
  unfold emit
  split
  · exact ⟨rfl, clean⟩
  · rename_i emission ran
    exact ⟨emission.sink.content, _, rfl, emission, ran, rfl⟩

theorem build_leaves (a : Assembler) (clean : a.code = #[]) :
    Leaves (fun b => b.settings = a.settings ∧ b.tokens = a.tokens ∧ b.Complete a.symbols)
      (fun b => b.settings = a.settings ∧ b.code = #[]) a.build := by
  unfold build
  dsimp only
  split
  · exact ⟨rfl, clean⟩
  · rename_i laid walked
    split
    · exact ⟨rfl, clean⟩
    · rename_i resolved filled
      have generated : ({ loadBase := a.settings.loadBase, symbols := a.symbols } : Layout).generate a.tokens =
          .ok resolved := by
        rw [Layout.generate, walked]
        exact filled
      refine (emit_leaves _ ?_).mono ?_ (fun _ left => left)
      · exact clean
      · rintro b ⟨code, journal, rfl, emission, written, rfl⟩
        exact ⟨rfl, rfl, ⟨resolved, generated, rfl, rfl⟩, emission, written, rfl⟩

-- Only the settings pass from the assembler to the call.
theorem assembleWith_leaves (a : Assembler) (name : String) (expansion : Expander → Run Expander) :
    Leaves (fun b => b.settings = a.settings ∧
        ∃ e, expansion { journal := [.assembling name] } = .ok e ∧ b.tokens = e.program ∧ b.Complete e.symbols)
      (fun b => b.settings = a.settings ∧ b.code = #[]) (a.assembleWith name expansion) := by
  unfold assembleWith
  dsimp only
  split
  · exact ⟨rfl, rfl⟩
  · rename_i e expanded
    refine (build_leaves _ rfl).mono ?_ (fun _ left => left)
    intro b built
    exact ⟨built.1, e, expanded, built.2.1, built.2.2⟩

-- What an assembler can be asked to assemble: a text, a file, or a text with a summary of the outcome.
inductive Call where
  | text (disk : Disk) (source : List Char) (file : String)
  | stored (disk : Disk) (path : Path)
  | summary (disk : Disk) (source : List Char) (file : String)

namespace Call

-- The assembler after the call, however it ended.
def after (a : Assembler) : Call → Assembler
  | .text disk source file => (a.assembleSource disk source file).state
  | .stored disk path => (a.assembleFile disk path).state
  | .summary disk source file => (a.run disk source file).2

end Call

end Assembler

end RuneAsm
