import Mathlib
import RuneAsm.Command
import RuneAsm.Proofs.Inputs
import RuneAsm.Proofs.Outcomes

namespace RuneAsm

open Run

-- What a failed build leaves alone. The command writes nothing before the whole program has been assembled, and what
-- has been assembled can always be listed; so once the first file has been opened to be written, only the disk can
-- refuse.

namespace Assembler

-- The refusals of the disk, as against the diagnostics of a program.
def Refused (f : Failure) : Prop := ∃ e, f = .file e

-- Whatever has been assembled, from a text or from a file, can be listed.
theorem assembleInput_listed {a after : Assembler} {disk : Disk} (input : Input)
    (ran : a.assembleInput disk input = .ok after) : ∃ text, after.listing = .ok text := by
  rw [assembleInput_eq] at ran
  cases expanded : input.expand ⟨a.settings, disk⟩ { journal := [.assembling input.name] } with
  | error stop =>
    rw [assembleWith_error a expanded] at ran
    cases ran
  | ok e =>
    obtain ⟨holds, orderly, settled⟩ := Input.expand_prepared expanded
    rw [assembleWith_ok a expanded] at ran
    have ends := build_ends (a := a.handed input.name e) orderly settled.spliced holds.labels
    exact ends.ok ran

variable {a : Assembler} {disk : Disk} {path : String} {w : Written} {stop : Stop Written}

theorem writeImage_refused (failed : a.writeImage disk path = .error stop) : Refused stop.failure := by
  unfold writeImage at failed
  split at failed
  · rename_i e _
    cases failed
    exact ⟨e, rfl⟩
  · cases failed

theorem writeImage_listing (written : a.writeImage disk path = .ok w) : w.assembler.listing = a.listing := by
  unfold writeImage at written
  split at written
  · cases written
  · cases written
    rfl

theorem writeSymbols_refused (failed : a.writeSymbols disk path = .error stop) : Refused stop.failure := by
  unfold writeSymbols at failed
  split at failed
  · rename_i e _
    cases failed
    exact ⟨e, rfl⟩
  · cases failed

-- The file is emptied before the listing is made, so this one could fail halfway.
theorem writeListing_refused (listed : ∃ text, a.listing = .ok text) (failed : a.writeListing disk path = .error stop) :
    Refused stop.failure := by
  obtain ⟨text, made⟩ := listed
  unfold writeListing at failed
  rw [made] at failed
  split at failed
  · rename_i e _
    cases failed
    exact ⟨e, rfl⟩
  · dsimp only at failed
    split at failed
    · rename_i e _
      cases failed
      exact ⟨e, rfl⟩
    · cases failed

end Assembler

namespace Command

variable {request : Request} {env : Environment} {disk : Disk}

-- Of a program that can be listed, every file is written unless the disk refuses one.
theorem writeAll_refused {a : Assembler} {stop : Stop Assembler.Written} (listed : ∃ text, a.listing = .ok text)
    (failed : writeAll request a disk = .error stop) : Assembler.Refused stop.failure := by
  unfold writeAll at failed
  rcases andThen_eq_error failed with first | ⟨w, written, failed⟩
  · exact Assembler.writeImage_refused first
  · have listedStill : ∃ text, w.assembler.listing = .ok text := by rwa [Assembler.writeImage_listing written]
    rcases andThen_eq_error failed with second | ⟨w', _, failed⟩
    · split at second
      · exact Assembler.writeListing_refused listedStill second
      · cases second
    · split at failed
      · exact Assembler.writeSymbols_refused failed
      · cases failed

theorem exitCode_eq_one {f : Failure} : (Grade.ofFailure f).exitCode = 1 ↔ ∃ d, f = .report d := by
  cases f with
  | report d => simp [Grade.ofFailure, Grade.exitCode]
  | file e =>
    simp only [Grade.ofFailure]
    split <;> simp [Grade.exitCode]
  | _ => simp [Grade.ofFailure, Grade.exitCode]

-- What the command makes of its input before it writes anything.
def assembled (request : Request) (env : Environment) (disk : Disk) : Run Assembler :=
  (Assembler.new (Settings.ofEnvironment env).1 request.includes).assembleFile disk request.input

theorem assembled_listed {a : Assembler} (ran : assembled request env disk = .ok a) : ∃ text, a.listing = .ok text :=
  Assembler.assembleInput_listed (.stored request.input) ran

-- A program that does not assemble stops the command before it writes.
theorem carryOut_failed {stop : Stop Assembler} (stopped : assembled request env disk = .error stop) :
    (carryOut request env disk).exitCode = (Grade.ofFailure stop.failure).exitCode ∧
      (carryOut request env disk).disk = disk := by
  unfold carryOut
  dsimp only
  rw [show Assembler.assembleFile _ disk request.input = .error stop from stopped]
  exact ⟨rfl, rfl⟩

theorem carryOut_tokens (tokens : request.tokens = true) : (carryOut request env disk).disk = disk := by
  cases ran : assembled request env disk with
  | error stop => exact (carryOut_failed ran).2
  | ok a =>
    unfold carryOut
    dsimp only
    rw [show Assembler.assembleFile _ disk request.input = .ok a from ran]
    dsimp only
    rw [if_pos tokens]

-- Once the program has been assembled no diagnostic comes any more.
theorem carryOut_assembled {a : Assembler} (ran : assembled request env disk = .ok a) :
    (carryOut request env disk).exitCode ≠ 1 := by
  unfold carryOut
  dsimp only
  rw [show Assembler.assembleFile _ disk request.input = .ok a from ran]
  dsimp only
  split
  · exact Nat.zero_ne_one
  · split
    · rename_i stop failed
      obtain ⟨e, refused⟩ := writeAll_refused (assembled_listed ran) failed
      intro one
      obtain ⟨d, report⟩ := exitCode_eq_one.mp one
      rw [refused] at report
      cases report
    · exact Nat.zero_ne_one

-- A request that ends with a diagnostic, that only shows tokens or whose program does not assemble leaves every file as
-- it was; and once it has begun to write, no diagnostic can come any more.
structure Spares (request : Request) (env : Environment) (disk : Disk) : Prop where
  diagnosed : (carryOut request env disk).exitCode = 1 → (carryOut request env disk).disk = disk ∧
    ∃ stop d, assembled request env disk = .error stop ∧ stop.failure = .report d
  shown : request.tokens = true → (carryOut request env disk).disk = disk
  unassembled : ∀ stop, assembled request env disk = .error stop → (carryOut request env disk).disk = disk
  begun : ∀ a stop d, assembled request env disk = .ok a → writeAll request a disk = .error stop →
    stop.failure ≠ .report d

theorem carryOut_spares (request : Request) (env : Environment) (disk : Disk) : Spares request env disk where
  diagnosed := by
    intro one
    cases ran : assembled request env disk with
    | ok a => exact absurd one (carryOut_assembled ran)
    | error stop =>
      obtain ⟨code, left⟩ := carryOut_failed ran
      obtain ⟨d, report⟩ := exitCode_eq_one.mp (code ▸ one)
      exact ⟨left, stop, d, rfl, report⟩
  shown := carryOut_tokens
  unassembled _ stopped := (carryOut_failed stopped).2
  begun := by
    intro a stop d ran failed report
    obtain ⟨e, refused⟩ := writeAll_refused (assembled_listed ran) failed
    rw [refused] at report
    cases report

variable {arguments : List String} {scan : Scan}

theorem request_tokens (made : Command.request disk scan = .ok request) : request.tokens = scan.has .tokens := by
  unfold Command.request at made
  cases checked : (scan.given.map (·.1)).forM (checkSetting disk scan) with
  | error u =>
    rw [checked] at made
    cases made
  | ok _ =>
    rw [checked] at made
    cases given : scan.positional with
    | nil =>
      rw [given] at made
      cases made
    | cons input extra =>
      rw [given] at made
      cases present : checkFile disk "'INPUT_FILE'" input true with
      | error u => simp [present, bind, Except.bind] at made
      | ok _ =>
        cases none : extra.isEmpty with
        | false => simp [present, none, bind, Except.bind] at made
        | true =>
          simp [present, none, bind, Except.bind, pure, Except.pure] at made
          rw [← made]

-- Either nothing is carried out, or the request that the arguments make.
theorem run_cases (arguments : List String) (env : Environment) (disk : Disk) :
    (run arguments env disk).disk = disk ∧ (run arguments env disk).exitCode ≠ 1 ∨
      ∃ scan request, Scan.ofArguments arguments = .ok scan ∧ Command.request disk scan = .ok request ∧
        run arguments env disk = carryOut request env disk := by
  unfold run
  split
  · exact .inl ⟨rfl, by simp⟩
  · rename_i scan scanned
    split
    · exact .inl ⟨rfl, Nat.zero_ne_one⟩
    · exact .inl ⟨rfl, Nat.zero_ne_one⟩
    · split
      · exact .inl ⟨rfl, by simp⟩
      · rename_i request made
        exact .inr ⟨scan, request, scanned, made, rfl⟩

-- Whatever is asked for, and so for every list of arguments that asks for something.
theorem run_leaves_disk : (∀ request env disk, Spares request env disk) ∧ ∀ arguments env disk,
    ((run arguments env disk).exitCode = 1 → (run arguments env disk).disk = disk ∧
      ∃ scan request stop d, Scan.ofArguments arguments = .ok scan ∧ Command.request disk scan = .ok request ∧
        assembled request env disk = .error stop ∧ stop.failure = .report d) ∧
    ∀ scan, Scan.ofArguments arguments = .ok scan →
      (scan.has .tokens = true → (run arguments env disk).disk = disk) ∧
      ∀ request, Command.request disk scan = .ok request →
        (∀ stop, assembled request env disk = .error stop → (run arguments env disk).disk = disk) ∧
        ∀ a stop d, assembled request env disk = .ok a → writeAll request a disk = .error stop →
          stop.failure ≠ .report d := by
  refine ⟨carryOut_spares, ?_⟩
  intro arguments env disk
  have cases := run_cases arguments env disk
  refine ⟨?_, ?_⟩
  · intro one
    rcases cases with ⟨_, other⟩ | ⟨scan, request, scanned, made, carried⟩
    · exact absurd one other
    · rw [carried] at one ⊢
      obtain ⟨left, stop, d, ran, report⟩ := (carryOut_spares request env disk).diagnosed one
      exact ⟨left, scan, request, stop, d, scanned, made, ran, report⟩
  · intro scan scanned
    refine ⟨?_, ?_⟩
    · intro tokens
      rcases cases with ⟨left, _⟩ | ⟨scan', request, scanned', made, carried⟩
      · exact left
      · rw [scanned] at scanned'
        cases scanned'
        rw [carried]
        exact (carryOut_spares request env disk).shown ((request_tokens made).trans tokens)
    · intro request made
      refine ⟨?_, (carryOut_spares request env disk).begun⟩
      intro stop stopped
      rcases cases with ⟨left, _⟩ | ⟨scan', request', scanned', made', carried⟩
      · exact left
      · rw [scanned] at scanned'
        cases scanned'
        rw [made] at made'
        cases made'
        rw [carried]
        exact (carryOut_spares request env disk).unassembled stop stopped

-- A word that names no label, with all three outputs asked for, one of which is there already.
theorem run_leaves_disk_unassembled :
    let disk : Disk := ⟨["d"], [(["d", "a.tal"], .file [59, 120]), (["d", "a.lst"], .file [7])]⟩
    let outcome := run ["a.tal", "-o", "a.rom", "-l", "a.lst", "-s", "a.sym"] [] disk
    outcome.exitCode = 1 ∧ outcome.disk = disk ∧
      (run ["--tokens", "a.tal", "-l", "a.lst"] [] disk).disk = disk := by
  intro disk outcome
  have one : outcome.exitCode = 1 := by decide +kernel
  have scanned : (Scan.ofArguments ["--tokens", "a.tal", "-l", "a.lst"]).toOption.map (·.has .tokens) = some true := by
    decide +kernel
  obtain ⟨scan, found, tokens⟩ := Option.map_eq_some_iff.mp scanned
  refine ⟨one, ((run_leaves_disk.2 _ [] disk).1 one).1, ?_⟩
  exact ((run_leaves_disk.2 _ [] disk).2 scan (eq_ok_of_toOption found)).1 tokens

end Command

end RuneAsm
