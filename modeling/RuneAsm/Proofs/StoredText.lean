import Mathlib
import RuneAsm.Proofs.Companions

namespace RuneAsm

open Run

-- A file and its text. All that a file adds to its text is that it counts as open. The two are expanded side by side,
-- and until an include stops the file, both do the same.

-- The second has no other file open. An include that goes through in the first finds its file closed and another file
-- allowed, all the more so when fewer are open.
def Likeness.freer : Likeness where
  noted := Eq
  opened chain chain' := chain'.Sublist chain
  excused := Failure.Within [.inclusion]
  note := @Journal.cons_congr
  nest place fewer := fewer.append (List.Sublist.refl [place])
  closed fewer new := fun still => new (fewer.mem still)
  circular _ _ := .inr fun _ within => within

theorem Likeness.freer_suits (ctx : Context) : Likeness.freer.Suits ctx ctx where
  disk := rfl
  includePaths := rfl
  reads source file like := Expander.read_like (fun _ _ => eq_comm) rfl source file like
  maxPasses := Int.le_refl _
  maxIncludeDepth := Int.le_refl _
  maxExpansions := Int.le_refl _
  limits := .inl ⟨rfl, rfl, rfl⟩

-- A file is on the chain from the start of its own expansion, and it is not when its text is expanded.
theorem Expander.processFile_text (ctx : Context) (path : Path) {source : List Char}
    (stored : ctx.disk.readText path = .ok source) (journal : Journal) :
    Mirrors (Failure.Within [.inclusion]) Likeness.freer.Like (processFile ctx path { journal })
      (processSource ctx source path.text { journal }) := by
  have opened : Likeness.freer.Like { journal, chain := [ctx.disk.resolve path] } { journal } :=
    ⟨journal, [], rfl, List.nil_sublist _, rfl⟩
  have roomier : room ctx { journal, chain := [ctx.disk.resolve path] } ≤ room ctx { journal } := by
    simp only [room, List.length_cons, List.length_nil]
    omega
  unfold processFile
  simp only [List.not_mem_nil, if_false, List.nil_append, stored]
  exact processSource_like (Likeness.freer_suits ctx) opened (.inr ⟨roomier, fun _ within => within⟩) source path.text

namespace Assembler

theorem assembleFile_mirrors (a : Assembler) {disk : Disk} {path : Path} {source : List Char}
    (stored : disk.readText path = .ok source) :
    Mirrors (Failure.Within [.inclusion]) Eq (a.assembleFile disk path) (a.assembleSource disk source path.text) := by
  have expanding := Expander.processFile_text ⟨a.settings, disk⟩ path stored [.assembling path.text]
  unfold assembleFile assembleSource
  cases expanded : Expander.processFile ⟨a.settings, disk⟩ path { journal := [.assembling path.text] } with
  | ok e =>
    obtain ⟨_, expanded', _, chain, rfl, _, rfl⟩ := expanding.ok expanded
    rw [assembleWith_ok a expanded, assembleWith_ok a expanded']
    exact mirrors_self _
  | error stop =>
    rcases expanding.error expanded with excuse | ⟨_, expanded', _, chain, rfl, _, rfl⟩
    · rw [assembleWith_error a expanded]
      exact mirrors_excused excuse
    · rw [assembleWith_error a expanded, assembleWith_error a expanded']
      exact mirrors_fail rfl stop.failure

theorem readText_of_assembleFile {a b : Assembler} {disk : Disk} {path : Path} (ran : a.assembleFile disk path = .ok b) :
    ∃ source, disk.readText path = .ok source := by
  cases stored : disk.readText path with
  | ok source => exact ⟨source, rfl⟩
  | error f =>
    have refused : Expander.processFile ⟨a.settings, disk⟩ path { journal := [.assembling path.text] } =
        .fail { journal := [.assembling path.text], chain := [disk.resolve path] } f := by
      simp [Expander.processFile, stored]
    rw [assembleFile, assembleWith_error a refused] at ran
    cases ran

-- What a file assembles to, its text does too, under the file's name. And where the file can be read and no include is
-- to blame, the text fails as the file does, and leaves the same behind.
theorem assembleFile_text (a : Assembler) (disk : Disk) (path : Path) :
    (∀ b, a.assembleFile disk path = .ok b → ∃ source, disk.readText path = .ok source ∧
      a.assembleSource disk source path.text = .ok b) ∧
    ∀ source stop, disk.readText path = .ok source → a.assembleFile disk path = .error stop →
      ¬ stop.failure.Within [.inclusion] → a.assembleSource disk source path.text = .error stop := by
  constructor
  · intro b ran
    obtain ⟨source, stored⟩ := readText_of_assembleFile ran
    obtain ⟨_, ran', rfl⟩ := (assembleFile_mirrors a stored).ok ran
    exact ⟨source, stored, ran'⟩
  · intro source stop stored stopped noInclude
    obtain ⟨_, stopped', rfl⟩ := ((assembleFile_mirrors a stored).error stopped).resolve_left noInclude
    exact stopped'

-- Both files include a third, which warns of its comment; the second of them fails at a label after that.
theorem assembleFile_text_including :
    let disk : Disk := ⟨[], [(["f"], .file "%m \x7b 01 \x7d ~g m".toUTF8.toList), (["g"], .file "m (x) @a".toUTF8.toList),
      (["h"], .file "%m \x7b 02 \x7d ~g .b".toUTF8.toList)]⟩
    let a : Assembler := {}
    (∃ b source, a.assembleFile disk (.ofString "f") = .ok b ∧ disk.readText (.ofString "f") = .ok source ∧
      a.assembleSource disk source "f" = .ok b ∧ b.code = #[1, 1] ∧ b.warnings.length = 2) ∧
    ∃ stop source, a.assembleFile disk (.ofString "h") = .error stop ∧ disk.readText (.ofString "h") = .ok source ∧
      a.assembleSource disk source "h" = .error stop ∧ stop.failure.Within [.undefinedLabel] := by
  intro disk a
  have names : (Path.ofString "f").text = "f" ∧ (Path.ofString "h").text = "h" := by decide +kernel
  constructor
  · have made : (a.assembleFile disk (.ofString "f")).toOption.map (fun b => (b.code, b.warnings.length)) =
        some (#[1, 1], 2) := by decide +kernel
    obtain ⟨b, ran, found⟩ := Option.map_eq_some_iff.mp made
    obtain ⟨code, warnings⟩ := Prod.mk.inj found
    obtain ⟨source, stored, ran'⟩ := (assembleFile_text a disk (.ofString "f")).1 b (eq_ok_of_toOption ran)
    rw [names.1] at ran'
    exact ⟨b, source, eq_ok_of_toOption ran, stored, ran', code, warnings⟩
  · have failed : (a.assembleFile disk (.ofString "h")).failure? =
        some (.report ⟨.undefinedLabel "b" none [], some ⟨"h", 1, 14⟩, none⟩) := by decide +kernel
    obtain ⟨stop, stopped, cause⟩ := eq_error_of_failure? failed
    have read : (disk.readText (.ofString "h")).toOption = some "%m \x7b 02 \x7d ~g .b".toList := by decide +kernel
    have stored := eq_ok_of_toOption read
    have noInclude : ¬ stop.failure.Within [.inclusion] := by
      rintro ⟨d, told, kind⟩
      rw [cause] at told
      cases told
      cases List.mem_singleton.mp kind
    have stopped' := (assembleFile_text a disk (.ofString "h")).2 _ stop stored stopped noInclude
    rw [names.2] at stopped'
    exact ⟨stop, _, stopped, stored, stopped', _, cause, List.mem_singleton_self _⟩

-- The include of a file can fail where that of its text does not: the file itself is one open file more.
example :
    let disk : Disk := ⟨[], [(["f"], .file "~g".toUTF8.toList), (["g"], .file "01".toUTF8.toList)]⟩
    let a : Assembler := { settings := { maxIncludeDepth := 1 } }
    (a.assembleFile disk (.ofString "f")).failure? =
        some (.report ⟨.inclusion "g" (.tooDeep 1) [], some ⟨"f", 1, 1⟩, none⟩) ∧
      (a.assembleSource disk "~g".toList "f").toOption.map (·.code) = some #[1] := by decide +kernel

end Assembler

end RuneAsm
