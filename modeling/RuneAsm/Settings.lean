import RuneAsm.Path
import RuneAsm.Text.Integer
import RuneAsm.Text.Quoted

namespace RuneAsm

-- The limits stop a run that would not end by itself.

-- A directory in which included files are looked for: a path in its normal form, or a text that was set as it stands.
-- Two that lead to the same place are different if they were not given in the same way.
inductive SearchDirectory where
  | normal (path : Path)
  | verbatim (written : String)
deriving DecidableEq, Repr

namespace SearchDirectory

def toPath : SearchDirectory → Path
  | .normal path => path
  | .verbatim written => .ofString written

def text : SearchDirectory → String
  | .normal path => path.text
  | .verbatim written => written

def describe : SearchDirectory → String
  | .normal path => s!"PosixPath({Text.quoted path.text.toList})"
  | .verbatim written => Text.quoted written.toList

end SearchDirectory

structure Settings where
  loadBase : Int := 0x100
  includePaths : List SearchDirectory := []
  maxPasses : Int := 1000
  maxIncludeDepth : Int := 64
  maxExpansions : Int := 65536
  commentWarnings : Bool := true
deriving DecidableEq, Repr

abbrev Environment : Type := List (String × String)

namespace Settings

def addIncludePath (s : Settings) (p : Path) : Settings :=
  if .normal p ∈ s.includePaths then s else { s with includePaths := s.includePaths ++ [.normal p] }

structure Ignored where
  name : String
  value : String
deriving DecidableEq, Repr

-- An empty variable counts as unset.
def valueOf? (env : Environment) (name : String) : Option String :=
  (env.lookup name).filter (· ≠ "")

def fromVariable (env : Environment) (name : String) (radix : Text.Radix)
    (set : Settings → Int → Settings) (found : Settings × List Ignored) : Settings × List Ignored :=
  match valueOf? env name with
  | none => found
  | some value =>
    match Text.readInteger? radix value with
    | some n => (set found.1 n, found.2)
    | none => (found.1, found.2 ++ [⟨name, value⟩])

def searchDirectories (env : Environment) : List SearchDirectory :=
  match valueOf? env "TALASM_INCLUDE_PATH" with
  | none => []
  | some value => ((value.splitOn ":").filter (· ≠ "")).map (fun text => .normal (.ofString text))

def ofEnvironment (env : Environment) : Settings × List Ignored :=
  let base : Settings × List Ignored := ({ includePaths := searchDirectories env }, [])
  let base := fromVariable env "TALASM_LOAD_BASE" .sixteen (fun s n => { s with loadBase := n }) base
  let base := fromVariable env "TALASM_MAX_PASSES" .ten (fun s n => { s with maxPasses := n }) base
  let base :=
    fromVariable env "TALASM_MAX_INCLUDE_DEPTH" .ten (fun s n => { s with maxIncludeDepth := n }) base
  fromVariable env "TALASM_MAX_EXPANSIONS" .ten (fun s n => { s with maxExpansions := n }) base

def describe (s : Settings) : String :=
  let paths := ", ".intercalate (s.includePaths.map SearchDirectory.describe)
  let warnings := if s.commentWarnings then "True" else "False"
  s!"AssemblerConfig(load_base={s.loadBase}, include_paths=[{paths}], max_passes={s.maxPasses}, " ++
    s!"max_include_depth={s.maxIncludeDepth}, max_expansions={s.maxExpansions}, " ++
    s!"comment_warnings={warnings})"

end Settings

end RuneAsm
