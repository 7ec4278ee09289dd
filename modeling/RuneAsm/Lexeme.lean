namespace RuneAsm

-- A word runs to the next blank, so a bracket counts only where a piece begins.

def isBlank (c : Char) : Bool := c = ' ' || c = '\t' || c = '\r' || c = '\n'

def isBracket (c : Char) : Bool := c = '[' || c = ']' || c = '\x7b' || c = '\x7d'

inductive Lexeme where
  | blank (text : List Char)
  -- One that is not closed runs to the end of the text.
  | comment (text : List Char) (closed : Bool)
  | bracket (c : Char)
  | word (first : Char) (rest : List Char)
deriving DecidableEq, Repr

namespace Lexeme

def text : Lexeme → List Char
  | .blank text => text
  | .comment text _ => text
  | .bracket c => [c]
  | .word first rest => first :: rest

-- Up to the parenthesis that closes it, from inside so many open ones.
def commentLength : Nat → List Char → Option Nat
  | 0, _ => some 0
  | _ + 1, [] => none
  | depth + 1, c :: rest =>
    let inner := if c = '(' then depth + 2 else if c = ')' then depth else depth + 1
    (commentLength inner rest).map (· + 1)

def next (c : Char) (rest : List Char) : Lexeme × List Char :=
  if isBlank c then (.blank (c :: rest.takeWhile isBlank), rest.dropWhile isBlank)
  else if c = '(' then
    match commentLength 1 rest with
    | some n => (.comment (c :: rest.take n) true, rest.drop n)
    | none => (.comment (c :: rest) false, [])
  else if isBracket c then (.bracket c, rest)
  else (.word c (rest.takeWhile (!isBlank ·)), rest.dropWhile (!isBlank ·))

theorem next_length_le (c : Char) (rest : List Char) : (next c rest).2.length ≤ rest.length := by
  unfold next
  split
  · exact (List.dropWhile_suffix _).length_le
  · split
    · split
      · simp
      · simp
    · split
      · exact Nat.le_refl _
      · exact (List.dropWhile_suffix _).length_le

def all : List Char → List Lexeme
  | [] => []
  | c :: rest => (next c rest).1 :: all (next c rest).2
termination_by text => text.length
decreasing_by
  exact Nat.lt_succ_of_le (next_length_le c rest)

end Lexeme

end RuneAsm
