import RuneAsm.Assembler
import RuneAsm.Proofs.Expansion

namespace RuneAsm

open Run

-- What an assembly starts from, a text or a file, and the way down from it to the files that it includes. Both kinds of
-- input come to the expansion of one text.

inductive Input where
  | text (source : List Char) (file : String)
  | stored (path : Path)

namespace Input

def name : Input → String
  | .text _ file => file
  | .stored path => path.text

def expand (ctx : Context) : Input → Expander → Run Expander
  | .text source file => Expander.processSource ctx source file
  | .stored path => Expander.processFile ctx path

-- What is read first.
def Gives (ctx : Context) (input : Input) (source : List Char) (file : String) : Prop :=
  input = .text source file ∨ ∃ path, input = .stored path ∧ ctx.disk.readText path = .ok source ∧ file = path.text

-- A file is open while it is expanded; a text has no place of its own.
theorem expand_ok {ctx : Context} {input : Input} {journal : Journal} {e : Expander}
    (ran : input.expand ctx { journal } = .ok e) : ∃ chain source file, input.Gives ctx source file ∧
      Expander.processSource ctx source file { journal, chain } = .ok e := by
  cases input with
  | text source file => exact ⟨[], source, file, .inl rfl, ran⟩
  | stored path =>
    simp only [expand, Expander.processFile, List.not_mem_nil, if_false, List.nil_append] at ran
    split at ran
    · cases ran
    · rename_i source stored
      exact ⟨[ctx.disk.resolve path], source, path.text, .inr ⟨path, rfl, stored, rfl⟩, ran⟩

theorem holds_start (journal : Journal) (chain : List Place) : ({ journal, chain } : Expander).Holds [] := by
  have fresh := Expander.holds_fresh journal
  exact fresh.aside rfl rfl rfl

-- Whatever the input, the program that comes out is in good order.
theorem expand_prepared {ctx : Context} {input : Input} {journal : Journal} {e : Expander}
    (ran : input.expand ctx { journal } = .ok e) : e.Holds e.program ∧ Orderly e.program ∧ e.Settled := by
  obtain ⟨chain, source, file, _, processed⟩ := expand_ok ran
  exact (Expander.processSource_ends ctx source file (holds_start journal chain)).ok processed

end Input

def Assembler.assembleInput (a : Assembler) (disk : Disk) : Input → Run Assembler
  | .text source file => a.assembleSource disk source file
  | .stored path => a.assembleFile disk path

theorem Assembler.assembleInput_eq (a : Assembler) (disk : Disk) (input : Input) :
    a.assembleInput disk input = a.assembleWith input.name (input.expand ⟨a.settings, disk⟩) := by
  cases input <;> rfl

namespace Assembler

variable {name : String} {expansion : Expander → Run Expander}

-- The assembler with the program that an expansion hands on to it.
def handed (a : Assembler) (name : String) (e : Expander) : Assembler :=
  let a := { (a.reset.note (.assembling name)).absorb e with tokens := e.program }
  a.note a.preprocessed

theorem assembleWith_ok (a : Assembler) {e : Expander} (expanded : expansion { journal := [.assembling name] } = .ok e) :
    a.assembleWith name expansion = (a.handed name e).build := by
  unfold assembleWith
  dsimp only
  rw [show expansion { journal := (a.reset.note (.assembling name)).journal } = .ok e from expanded]
  rfl

theorem assembleWith_error (a : Assembler) {stop : Stop Expander}
    (stopped : expansion { journal := [.assembling name] } = .error stop) :
    a.assembleWith name expansion = .fail ((a.reset.note (.assembling name)).absorb stop.state) stop.failure := by
  unfold assembleWith
  dsimp only
  rw [show expansion { journal := (a.reset.note (.assembling name)).journal } = .error stop from stopped]

end Assembler

namespace Expander

-- The way down when so many more files may be open at once.
def below (ctx : Context) : Nat → Option (Expander → Run Expander)
  | 0 => none
  | room + 1 => some (expand ctx room)

theorem expand_eq (ctx : Context) (room : Nat) :
    expand ctx room = settle ctx (below ctx room) ctx.settings.maxPasses.toNat := by
  cases room <;> rfl

end Expander

end RuneAsm
