import RuneAsm.Diagnostic
import RuneAsm.Text.Quoted
import RuneAsm.Text.Utf8

namespace RuneAsm

-- A failure always comes with the state it left behind, because what was read, declared and written before it can still
-- be looked at.

structure FileError where
  code : Int
  reason : String
  path : String
deriving DecidableEq, Repr

namespace FileError

def notFound (path : String) : FileError := ⟨2, "No such file or directory", path⟩

def notDirectory (path : String) : FileError := ⟨20, "Not a directory", path⟩

def isDirectory (path : String) : FileError := ⟨21, "Is a directory", path⟩

def message (e : FileError) : String := s!"[Errno {e.code}] {e.reason}: {Text.quoted e.path.toList}"

end FileError

inductive Failure where
  | report (diagnostic : Diagnostic)
  | file (error : FileError)
  | undecodable (fault : Text.Utf8.Fault)
  -- The four below arise only from tokens and operands that no text produces.
  | unknownMnemonic (mnemonic : String)
  | byteRange (value : Int)
  | shortRange (value : Int)
  | unpairedBracket (location : Location)
deriving DecidableEq, Repr

def Failure.message : Failure → String
  | .report d => d.message
  | .file e => e.message
  | .undecodable fault => fault.message
  | .unknownMnemonic mnemonic => s!"unknown mnemonic {Text.quoted mnemonic.toList}"
  | .byteRange value => s!"{value} does not fit in a byte"
  | .shortRange value => s!"{value} does not fit in two bytes"
  | .unpairedBracket location => s!"the bracket at {location.text} has no partner"

structure Stop (σ : Type) where
  failure : Failure
  state : σ

abbrev Run (σ : Type) : Type := Except (Stop σ) σ

namespace Run

variable {σ : Type}

def state : Run σ → σ
  | .ok s => s
  | .error stop => stop.state

def failure? : Run σ → Option Failure
  | .ok _ => none
  | .error stop => some stop.failure

def fail (s : σ) (f : Failure) : Run σ := .error ⟨f, s⟩

@[inline] def andThen (x : Run σ) (next : σ → Run σ) : Run σ :=
  match x with
  | .ok s => next s
  | .error stop => .error stop

-- Up to the first that fails.
def each {α : Type} (step : σ → α → Run σ) : σ → List α → Run σ
  | s, [] => .ok s
  | s, x :: rest => (step s x).andThen (fun s => each step s rest)

@[simp] theorem andThen_ok (s : σ) (next : σ → Run σ) : andThen (.ok s) next = next s := rfl

@[simp] theorem andThen_error (stop : Stop σ) (next : σ → Run σ) :
    andThen (.error stop) next = .error stop := rfl

@[simp] theorem each_nil {α : Type} (step : σ → α → Run σ) (s : σ) : each step s [] = .ok s := rfl

theorem each_cons {α : Type} (step : σ → α → Run σ) (s : σ) (x : α) (rest : List α) :
    each step s (x :: rest) = (step s x).andThen (fun s => each step s rest) := rfl

end Run

end RuneAsm
