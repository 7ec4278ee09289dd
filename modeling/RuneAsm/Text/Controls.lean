namespace RuneAsm.Text

-- Control sequences of terminals: an escape character, an opening bracket, parameters and a letter. They steer a screen
-- and say nothing, so they are left out of what is shown on a stream that is no screen. A sequence that breaks off
-- before its letter is ordinary text.

def escapeChar : Char := '\x1b'

def isControlParameter (c : Char) : Bool := c = ';' || c = '?' || ('0' ≤ c && c ≤ '9')

def isAsciiLetter (c : Char) : Bool := ('a' ≤ c && c ≤ 'z') || ('A' ≤ c && c ≤ 'Z')

-- What is pending has its latest character first.
structure ControlFilter where
  kept : Array Char := #[]
  pending : List Char := []

namespace ControlFilter

def start (f : ControlFilter) (c : Char) : ControlFilter :=
  if c = escapeChar then { f with pending := [c] } else { f with kept := f.kept.push c }

-- It is no sequence after all.
def release (f : ControlFilter) : ControlFilter := { kept := f.kept ++ f.pending.reverse }

def step (f : ControlFilter) (c : Char) : ControlFilter :=
  match f.pending with
  | [] => f.start c
  | [_] => if c = '[' then { f with pending := c :: f.pending } else f.release.start c
  | _ =>
    if isControlParameter c then { f with pending := c :: f.pending }
    else if isAsciiLetter c then { f with pending := [] }
    else f.release.start c

end ControlFilter

def withoutControls (text : String) : String :=
  String.ofList (text.toList.foldl ControlFilter.step {}).release.kept.toList

end RuneAsm.Text
