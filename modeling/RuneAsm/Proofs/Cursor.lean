import Mathlib
import RuneAsm.Layout
import RuneAsm.Proofs.Regular

namespace RuneAsm

-- Where the tokens of a program stand, told from the tokens alone. Two positions go along with them, that of the output
-- and that of the address as the program sees it; from these follow the addresses that labels get and the operands that
-- references leave.

-- The bytes that a token puts into the image.
def TokenKind.size : TokenKind → Nat
  | .opcode _ => 1
  | .rawHex _ width => width.bytes
  | .literalHex _ width => 1 + width.bytes
  | .rawText data => data.length
  | .reference r => r.instruction.toList.length + r.mode.width
  | _ => 0

structure Cursor where
  output : Int
  target : Int
deriving DecidableEq, Repr

namespace Cursor

-- An absolute padding sets both positions, a target position only the second; all else moves both alike.
def pass (c : Cursor) (t : Token) : Cursor :=
  match t.kind with
  | .padAbsolute position => ⟨position, position⟩
  | .retarget position => ⟨c.output, position⟩
  | .padRelative count => ⟨c.output + count, c.target + count⟩
  | kind => ⟨c.output + kind.size, c.target + kind.size⟩

def after (c : Cursor) (tokens : List Token) : Cursor := tokens.foldl pass c

-- The operand of a reference comes after the instruction that the reference stands for.
def operand? (c : Cursor) (t : Token) : Option Operand :=
  match t.kind with
  | .reference r => r.target.label?.map fun label =>
    ⟨c.output + r.instruction.toList.length, label, r.mode, c.target + r.instruction.toList.length, t, none⟩
  | _ => none

-- The operands of a program, in output order.
def operands (c : Cursor) : List Token → List Operand
  | [] => []
  | t :: rest => (c.operand? t).toList ++ operands (c.pass t) rest

-- The names that a program places, each with its address.
def placements (c : Cursor) : List Token → List (String × Int)
  | [] => []
  | t :: rest => t.kind.places.map (·, c.target) ++ placements (c.pass t) rest

variable {c : Cursor} {t : Token} {tokens : List Token}

theorem after_snoc : c.after (tokens ++ [t]) = (c.after tokens).pass t := by simp [after]

theorem operands_snoc : c.operands (tokens ++ [t]) = c.operands tokens ++ ((c.after tokens).operand? t).toList := by
  induction tokens generalizing c with
  | nil => simp [operands, after]
  | cons u rest ih =>
    rw [List.cons_append, operands, operands, ih, List.append_assoc]
    rfl

theorem placements_snoc : c.placements (tokens ++ [t]) =
    c.placements tokens ++ t.kind.places.map (·, (c.after tokens).target) := by
  induction tokens generalizing c with
  | nil => simp [placements, after]
  | cons u rest ih =>
    rw [List.cons_append, placements, placements, ih, List.append_assoc]
    rfl

theorem placements_names : (c.placements tokens).map (·.1) = tokens.flatMap (·.kind.places) := by
  induction tokens generalizing c with
  | nil => rfl
  | cons t rest ih => simp [placements, ih, Function.comp_def]

-- No two addresses for one name.
theorem placements_unique (once : (tokens.flatMap (·.kind.places)).Nodup) {name : String} {a b : Int}
    (first : (name, a) ∈ c.placements tokens) (second : (name, b) ∈ c.placements tokens) : a = b := by
  rw [← placements_names (c := c)] at once
  exact congrArg Prod.snd (List.inj_on_of_nodup_map once first second rfl)

theorem operands_wait : ∀ o ∈ c.operands tokens, o.value = none := by
  induction tokens generalizing c with
  | nil => simp [operands]
  | cons t rest ih =>
    intro o member
    rcases List.mem_append.mp member with here | later
    · unfold operand? at here
      split at here
      · obtain ⟨label, _, rfl⟩ := Option.map_eq_some_iff.mp (Option.mem_toList.mp here)
        rfl
      · cases here
    · exact ih o later

theorem pass_of_places (places : t.kind.places ≠ []) : c.pass t = c ∧ c.operand? t = none := by
  unfold pass operand?
  cases kind : t.kind <;> simp_all [TokenKind.places, TokenKind.size]

end Cursor

def Record.operand? : Record → Option Operand
  | .bytes _ _ _ => none
  | .operand o => some o

end RuneAsm
