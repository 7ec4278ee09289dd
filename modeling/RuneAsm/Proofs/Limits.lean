import Mathlib
import RuneAsm.Proofs.Companions
import RuneAsm.Proofs.Lexing

namespace RuneAsm

open Run

-- What the limits can do. Two runs go side by side, the second under limits that are no tighter, and the two need not
-- look at comments in the same way. As long as the first goes on, so does the second, and all that can differ between
-- them is what they have noted: a limit stops a run, and nothing else of what a run does depends on it.

namespace Reader

variable {r r' : Reader} {text : List Char} {lexeme : Lexeme}

-- The same but for what was noted and whether comments are looked at.
def Matches (r r' : Reader) : Prop := ∃ checkComments journal, r' = { r with checkComments, journal }

theorem Matches.remark (same : Matches r r') (lexeme : Lexeme) : Matches (r.remark lexeme) (r'.remark lexeme) := by
  obtain ⟨check, journal, rfl⟩ := same
  obtain ⟨notes, remarked⟩ := remark_frame r lexeme
  obtain ⟨notes', remarked'⟩ := remark_frame { r with checkComments := check, journal } lexeme
  rw [remarked, remarked']
  exact ⟨check, notes', rfl⟩

theorem declare_follows (same : Matches r r') (d : Declaration) : Follows Matches (r.declare d) (r'.declare d) := by
  obtain ⟨check, journal, rfl⟩ := same
  unfold declare define
  cases d.enters with
  | none =>
    dsimp only [Option.elim_none, location]
    split
    · exact mirrors_ok ⟨check, _, rfl⟩
    · exact mirrors_excused trivial
  | some name =>
    dsimp only [Option.elim_some, enter, location]
    split
    · exact mirrors_ok ⟨check, _, rfl⟩
    · exact mirrors_excused trivial

theorem attach_follows (same : Matches r r') (kind : TokenKind) : Follows Matches (r.attach text kind) (r'.attach text kind) := by
  obtain ⟨check, journal, rfl⟩ := same
  unfold attach
  split
  · exact mirrors_ok ⟨check, journal, rfl⟩
  · exact mirrors_ok ⟨check, journal, rfl⟩

theorem accept_follows (same : Matches r r') (m : Meaning) : Follows Matches (r.accept text m) (r'.accept text m) := by
  have declared : Follows Matches (Run.each declare r m.declares) (Run.each declare r' m.declares) :=
    mirrors_each (fun _ _ d _ same => declare_follows same d) same
  have frames : r'.frames = r.frames := by
    obtain ⟨check, journal, rfl⟩ := same
    rfl
  unfold accept
  rw [frames]
  split
  · exact declared.andThen (fun _ _ same => same) fun _ _ same => attach_follows same m.kind
  · split
    · exact mirrors_excused trivial
    · split
      · exact mirrors_excused trivial
      · apply declared.andThen (fun _ _ same => same)
        rintro s _ ⟨check, journal, rfl⟩
        exact mirrors_ok ⟨check, journal, rfl⟩

theorem take_follows (same : Matches r r') (proper : lexeme.Proper) : Follows Matches (r.take lexeme) (r'.take lexeme) := by
  have meant : lexeme.meaning r'.location r'.parent r'.symbols.contains =
      lexeme.meaning r.location r.parent r.symbols.contains := by
    obtain ⟨check, journal, rfl⟩ := same
    rfl
  rw [take_eq r proper, take_eq r' proper, meant]
  cases lexeme.meaning r.location r.parent r.symbols.contains with
  | error fault => exact mirrors_excused trivial
  | ok m => exact accept_follows (same.remark lexeme) m

theorem Matches.advance (same : Matches r r') (text : List Char) :
    Matches (text.foldl Reader.advance r) (text.foldl Reader.advance r') := by
  induction text generalizing r r' with
  | nil => exact same
  | cons c rest ih =>
    apply ih
    obtain ⟨check, journal, rfl⟩ := same
    unfold Reader.advance
    split
    · exact ⟨check, journal, rfl⟩
    · exact ⟨check, journal, rfl⟩

theorem step_follows (same : Matches r r') (proper : lexeme.Proper) : Follows Matches (r.step lexeme) (r'.step lexeme) := by
  have taken := take_follows same proper
  unfold step
  cases ran : r.take lexeme with
  | error stop => exact mirrors_excused trivial
  | ok next =>
    obtain ⟨next', ran', after⟩ := taken.ok ran
    rw [ran']
    exact mirrors_ok (after.advance lexeme.text)

theorem run_follows (same : Matches r r') : Follows Matches r.run r'.run := by
  have source : r'.source = r.source := by
    obtain ⟨check, journal, rfl⟩ := same
    rfl
  have walked : Follows Matches (Run.each step r (Lexeme.all r.source)) (Run.each step r' (Lexeme.all r.source)) := by
    refine mirrors_each ?_ same
    intro _ _ lexeme member same
    exact step_follows same (Lexeme.all_proper r.source lexeme member)
  unfold run
  rw [source]
  apply walked.andThen (fun _ _ same => same)
  rintro last _ ⟨check, journal, rfl⟩
  unfold finish
  dsimp only
  split
  · exact mirrors_ok ⟨check, journal, rfl⟩
  · exact mirrors_excused trivial

end Reader

-- The second settings are for the same programs, under limits that are no tighter.
structure Settings.Loosens (s s' : Settings) : Prop where
  loadBase : s'.loadBase = s.loadBase
  includePaths : s'.includePaths = s.includePaths
  maxPasses : s.maxPasses ≤ s'.maxPasses
  maxIncludeDepth : s.maxIncludeDepth ≤ s'.maxIncludeDepth
  maxExpansions : s.maxExpansions ≤ s'.maxExpansions

-- Whatever was noted. Nothing is asked of the second expansion once the first has failed.
def Likeness.unnoted : Likeness := .level (fun _ _ => True) (fun _ => True) fun _ _ => trivial

theorem Settings.Loosens.suits {s s' : Settings} (looser : s.Loosens s') (disk : Disk) :
    Likeness.unnoted.Suits ⟨s, disk⟩ ⟨s', disk⟩ where
  disk := rfl
  includePaths := looser.includePaths
  maxPasses := looser.maxPasses
  maxIncludeDepth := looser.maxIncludeDepth
  maxExpansions := looser.maxExpansions
  limits := .inr fun _ => trivial
  reads {e e'} source file like := by
    obtain ⟨journal, chain, _, rfl, rfl⟩ := like
    have readers : (e.reader s source file).Matches ({ e with journal }.reader s' source file) := ⟨_, journal, rfl⟩
    have reading := Reader.run_follows readers
    rw [Expander.read_eq, Expander.read_eq]
    cases ran : (e.reader s source file).run with
    | error stop => exact mirrors_excused trivial
    | ok r =>
      obtain ⟨_, ran', check, noted, rfl⟩ := reading.ok ran
      rw [ran']
      exact mirrors_ok ⟨noted, _, trivial, rfl, rfl⟩

namespace Assembler

variable {a a' b : Assembler}

-- The same but for the limits and for what was noted.
def Matches (settings : Settings) (a a' : Assembler) : Prop := ∃ journal, a' = { a with settings, journal }

theorem emit_follows {settings : Settings} (looser : a.settings.Loosens settings) (same : a.Matches settings a') :
    Follows (Matches settings) a.emit a'.emit := by
  obtain ⟨journal, rfl⟩ := same
  unfold emit
  dsimp only
  rw [looser.loadBase]
  split
  · exact mirrors_excused trivial
  · exact mirrors_ok ⟨_, rfl⟩

theorem build_follows {settings : Settings} (looser : a.settings.Loosens settings) (same : a.Matches settings a') :
    Follows (Matches settings) a.build a'.build := by
  obtain ⟨journal, rfl⟩ := same
  unfold build
  dsimp only
  rw [looser.loadBase]
  split
  · exact mirrors_excused trivial
  · split
    · exact mirrors_excused trivial
    · exact emit_follows looser ⟨_, rfl⟩

-- What was assembled under some limits is assembled under any that are no tighter, to the same tokens, records, code,
-- labels and counters.
theorem assembleInput_of_tighter (a a' : Assembler) (looser : a.settings.Loosens a'.settings) (disk : Disk)
    (input : Input) (ran : a.assembleInput disk input = .ok b) :
    ∃ journal, a'.assembleInput disk input = .ok { b with settings := a'.settings, journal } := by
  have expanding := input.expand_like (looser.suits disk) (fun _ => trivial) (fun _ => rfl)
    { journal := [.assembling input.name] }
  have follows : Follows (Matches a'.settings) (a.assembleInput disk input) (a'.assembleInput disk input) := by
    rw [assembleInput_eq, assembleInput_eq]
    unfold assembleWith
    dsimp only
    split
    · exact mirrors_excused trivial
    · rename_i e expanded
      obtain ⟨e', expanded', journal, _, _, rfl, rfl⟩ := expanding.ok expanded
      rw [show (a'.reset.note (.assembling input.name)).journal = [.assembling input.name] from rfl, expanded']
      exact build_follows looser ⟨_, rfl⟩
  obtain ⟨_, ran', journal, rfl⟩ := follows.ok ran
  exact ⟨journal, ran'⟩

-- Each limit of the first assembler is met, and only the second looks at the comment.
theorem assembleInput_of_tighter_at_limits :
    let disk : Disk := ⟨[], [(["f"], .file [109])]⟩
    let input : Input := .text "%m \x7b 01 \x7d (x) m ~f".toList "<input>"
    let tight : Assembler := { settings :=
      { maxPasses := 2, maxIncludeDepth := 1, maxExpansions := 2, commentWarnings := false } }
    ∃ b journal, tight.assembleInput disk input = .ok b ∧ (b.code, b.stats) = (#[1, 1], some ⟨2, 3, 1, 1, 2⟩) ∧
      ({} : Assembler).assembleInput disk input = .ok { b with settings := {}, journal } := by
  intro disk input tight
  have ran : (tight.assembleInput disk input).toOption.map (fun b => (b.code, b.stats)) =
      some (#[1, 1], some ⟨2, 3, 1, 1, 2⟩) := by decide +kernel
  obtain ⟨b, first, outcome⟩ := Option.map_eq_some_iff.mp ran
  have looser : tight.settings.Loosens ({} : Assembler).settings := by constructor <;> decide
  obtain ⟨journal, second⟩ := assembleInput_of_tighter tight {} looser disk input (eq_ok_of_toOption first)
  exact ⟨b, journal, eq_ok_of_toOption first, outcome, second⟩

end Assembler

end RuneAsm
