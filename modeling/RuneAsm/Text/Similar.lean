namespace RuneAsm.Text

-- Names that look alike. Two texts are compared by the share of their characters that lie in common blocks: the longest
-- block first, then the same on both sides of it. Names that share at least three fifths are close.

structure Block where
  left : Nat
  right : Nat
  size : Nat
deriving DecidableEq, Repr

-- One row of the table of common runs: for each position of the right text, the length of the run that ends
-- there and at the current character of the left text. The row above, shifted by one, gives the runs to extend.
def runRow (skip : Char → Bool) (c : Char) : Nat → List Char → List Nat → List Nat
  | _, [], _ => []
  | above, d :: rest, row =>
    (if d = c && !skip d then above + 1 else 0) :: runRow skip c (row.headD 0) rest row.tail

def bestInRow (i : Nat) : Nat → List Nat → Block → Block
  | _, [], best => best
  | j, run :: rest, best =>
    bestInRow i (j + 1) rest (if best.size < run then ⟨i + 1 - run, j + 1 - run, run⟩ else best)

def longestRun (skip : Char → Bool) (right : List Char) : Nat → List Nat → List Char → Block → Block
  | _, _, [], best => best
  | i, row, c :: rest, best =>
    let row := runRow skip c 0 right row
    longestRun skip right (i + 1) row rest (bestInRow i 0 row best)

def commonStart : List Char → List Char → Nat
  | c :: left, d :: right => if c = d then commonStart left right + 1 else 0
  | _, _ => 0

-- The first of the longest blocks found without the skipped characters, then made longer at both ends while the texts
-- agree, skipped characters included.
def longestBlock (skip : Char → Bool) (left right : List Char) : Block :=
  let found := longestRun skip right 0 [] left ⟨0, 0, 0⟩
  let back := commonStart (left.take found.left).reverse (right.take found.right).reverse
  let start : Block := ⟨found.left - back, found.right - back, found.size + back⟩
  let ahead := commonStart (left.drop (start.left + start.size)) (right.drop (start.right + start.size))
  { start with size := start.size + ahead }

def matched (skip : Char → Bool) (left right : List Char) : Nat :=
  match longestBlock skip left right with
  | ⟨i, j, size⟩ =>
    if _inside : 0 < size ∧ i + size ≤ left.length then
      matched skip (left.take i) (right.take j) + size +
        matched skip (left.drop (i + size)) (right.drop (j + size))
    else 0
termination_by left.length
decreasing_by
  all_goals simp only [List.length_take, List.length_drop]; omega

-- Characters that fill a long text are not looked for: those in more than a hundredth of its places, when it has two
-- hundred or more.
def tooFrequent (text : List Char) (c : Char) : Bool :=
  200 ≤ text.length && text.length / 100 + 1 < text.count c

-- Two empty texts are alike in full.
structure Likeness where
  shared : Nat
  total : Nat
deriving DecidableEq, Repr

def likeness (candidate name : List Char) : Likeness :=
  let total := candidate.length + name.length
  if total = 0 then ⟨1, 1⟩ else ⟨2 * matched (tooFrequent name) candidate name, total⟩

def Likeness.close (l : Likeness) : Bool := 3 * l.total ≤ 5 * l.shared

def Likeness.less (a b : Likeness) : Bool := a.shared * b.total < b.shared * a.total

-- The close candidates, the most alike first and equals by descending name, at most so many of them.
def closeNames (name : String) (candidates : List String) (limit : Nat) : List String :=
  let scored := candidates.map (fun candidate => (likeness candidate.toList name.toList, candidate))
  let close := scored.filter (·.1.close)
  let ranked := close.mergeSort
    (fun a b => b.1.less a.1 || (!a.1.less b.1 && decide (b.2 ≤ a.2)))
  (ranked.take limit).map (·.2)

end RuneAsm.Text
