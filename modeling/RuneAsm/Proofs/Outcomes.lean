import Mathlib
import RuneAsm.Assembler
import RuneAsm.Proofs.Expansion
import RuneAsm.Proofs.Laying

namespace RuneAsm

open Run

-- How an assembly ends: with an image that can be listed, or with a diagnostic of one of eight families. No text, disk
-- or setting leads to a failure of another sort, at any stage.

variable {records : List Record}

theorem Emission.step_ends (loadBase : Int) (e : Emission) {record : Record} {data : List UInt8}
    (known : record.data = .ok data) :
    Ends (fun _ => True) (Failure.Within [.output]) (Emission.step loadBase e record) := by
  unfold Emission.step
  rw [known]
  cases data with
  | nil => trivial
  | cons byte rest =>
    dsimp only
    split
    · exact ⟨_, rfl, by simp [Cause.kind]⟩
    · split
      · exact ⟨_, rfl, by simp [Cause.kind]⟩
      · trivial

theorem Sink.emit_ends (s : Sink) (loadBase : Int) (known : ∀ record ∈ records, ∃ data, record.data = .ok data) :
    Ends (fun _ => True) (Failure.Within [.output]) (s.emit loadBase records) := by
  have ends : Ends _ (Failure.Within [.output]) (s.emit loadBase records) := ends_each
    (fun rest _ => ∀ record ∈ rest, ∃ data, record.data = .ok data) (fun e record rest before => by
      obtain ⟨data, here⟩ := before record (by simp)
      exact (Emission.step_ends loadBase e here).mono
        (fun _ _ other member => before other (List.mem_cons_of_mem _ member)) (fun _ failed => failed))
    known
  exact ends.mono (fun _ _ => trivial) (fun _ failed => failed)

theorem Listing.groupsOnto_ok (groups : List Listing.Group)
    (known : ∀ record ∈ records, ∃ data, record.data = .ok data) :
    ∃ all, Listing.groupsOnto groups records = .ok all := by
  induction records generalizing groups with
  | nil => exact ⟨groups, rfl⟩
  | cons record rest ih =>
    obtain ⟨data, here⟩ := known record (by simp)
    obtain ⟨all, later⟩ := ih (Listing.join groups record data) (fun other member => known other (by simp [member]))
    exact ⟨all, by simp only [Listing.groupsOnto, here, later]⟩

theorem Listing.render_ok (symbols : SymbolTable) (known : ∀ record ∈ records, ∃ data, record.data = .ok data) :
    ∃ text, Listing.render records symbols = .ok text := by
  obtain ⟨all, grouped⟩ := Listing.groupsOnto_ok [] known
  exact ⟨_, by simp only [Listing.render, Listing.groups, grouped]; rfl⟩

namespace Assembler

variable {a : Assembler} {tokens : List Token}

-- The families of diagnostics with which an assembly can fail.
def faults : List Kind :=
  [.malformed, .unmatchedBracket, .duplicateLabel, .undefinedLabel, .referenceRange, .macroMisuse, .inclusion,
    .output]

theorem emit_ends (known : ∀ record ∈ a.records, ∃ data, record.data = .ok data) :
    Ends (fun after => after.drafted = a.drafted ∧ after.symbols = a.symbols) (Failure.Within [.output]) a.emit := by
  have ends := Sink.emit_ends {} a.settings.loadBase known
  unfold emit
  split
  · rename_i stop failed
    exact ends.error failed
  · exact ⟨rfl, rfl⟩

-- The families of diagnostics that are left to a program without inclusions.
def buildFaults : List Kind := Layout.faults ++ [.output]

theorem build_ends (orderly : Orderly a.tokens) (noInclusion : ∀ t ∈ a.tokens, ∀ name, t.kind ≠ .inclusion name)
    (labels : (closerLabels a.tokens).Nodup) :
    Ends (fun after => ∃ text, after.listing = .ok text) (Failure.Within buildFaults) a.build := by
  have ends := Layout.generate_ends { loadBase := a.settings.loadBase, symbols := a.symbols } orderly noInclusion labels
  unfold build Layout.generate at *
  dsimp only
  split
  · rename_i stop failed
    rw [failed] at ends
    exact (Layout.NamedFault.within ends).mono (List.subset_append_left _ _)
  · rename_i laid walked
    rw [walked, andThen_ok] at ends
    split
    · rename_i stop failed
      exact (ends.error failed).within.mono (List.subset_append_left _ _)
    · rename_i resolved filled
      have known := (ends.ok filled).data
      refine (emit_ends known).mono ?_ (fun _ failed => failed.mono (List.subset_append_right _ _))
      rintro after ⟨drafted, symbols⟩
      unfold listing
      rw [drafted, symbols]
      exact Listing.render_ok _ known

theorem assembleWith_ends {expansion : Expander → Run Expander} (name : String)
    (expands : ∀ journal, Ends (fun e => e.Holds e.program ∧ Orderly e.program ∧ e.Settled)
      (Failure.Within Expander.faults) (expansion { journal })) :
    Ends (fun after => ∃ text, after.listing = .ok text) (Failure.Within faults) (a.assembleWith name expansion) := by
  unfold assembleWith
  dsimp only
  split
  · rename_i stop failed
    exact ((expands _).error failed).mono (by simp [faults, Expander.faults, Reader.faults])
  · rename_i e expanded
    obtain ⟨holds, orderly, settled⟩ := (expands _).ok expanded
    exact (build_ends orderly settled.spliced holds.labels).mono (fun _ listed => listed)
      (fun _ failed => failed.mono (by simp [buildFaults, faults, Layout.faults]))

-- Every call ends with a listable image or one of eight families of diagnostics; its summary never hides another
-- failure. And whatever program an expansion hands on, no layout of it, from any base and any table, meets an
-- unexpected token, fills an operand twice, or fails but for the labels and ranges of the program itself.
theorem assembleSource_outcomes (a : Assembler) (disk : Disk) (source : List Char) (file : String) :
    Ends (fun after => ∃ text, after.listing = .ok text) (Failure.Within faults) (a.assembleSource disk source file) ∧
    ((a.run disk source file).1.failure = none ∨
      ∃ f, (a.run disk source file).1.failure = some f ∧ f.Within faults) ∧
    ∀ journal, Ends
      (fun e => ∀ l : Layout, Ends (fun _ => True) (Failure.Within Layout.faults) (l.generate e.program))
      (Failure.Within Expander.faults) (Expander.processSource ⟨a.settings, disk⟩ source file { journal }) := by
  have expands (journal : Journal) :=
    Expander.processSource_ends ⟨a.settings, disk⟩ source file (Expander.holds_fresh journal)
  have ends := assembleWith_ends (a := a) file expands
  refine ⟨ends, ?_, ?_⟩
  · unfold run
    split
    · exact .inl rfl
    · rename_i stop failed
      exact .inr ⟨_, rfl, ends.error failed⟩
  · intro journal
    refine (expands journal).mono ?_ (fun _ failed => failed)
    rintro e ⟨holds, orderly, settled⟩ l
    exact (Layout.generate_ends l orderly settled.spliced holds.labels).mono (fun _ _ => trivial)
      (fun _ fault => fault.within)

end Assembler

end RuneAsm
