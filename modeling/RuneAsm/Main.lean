import RuneAsm.Command

namespace RuneAsm.Program

-- The program gathers the files that a command can reach into a disk, runs the command on it, and then prints and
-- writes what came out. Files are reached from the arguments, and from the files by their include words.

def nodeAt (place : Place) : IO (Option Node) := do
  let path := (← IO.currentDir) / ("/" ++ "/".intercalate place)
  try
    if ← path.isDir then return some .directory
    if ← path.pathExists then return some (.file (← IO.FS.readBinFile path).toList)
    return none
  catch _ => return none

-- Gathers a path and the directories on the way to it.
def gather (disk : Disk) (path : Path) : IO Disk := do
  let mut disk := disk
  for n in List.range (path.parts.length + 1) do
    let place := disk.resolve ⟨path.root, path.parts.take n⟩
    if let some node ← nodeAt place then
      disk := disk.put place node
  return disk

def includeNames (text : List Char) : List String :=
  (Lexeme.all text).filterMap fun lexeme =>
    match lexeme with
    | .word '~' name => some (String.ofList name)
    | _ => none

def candidates (ctx : Context) (file : Path) : List Path :=
  match ctx.disk.readText file with
  | .error _ => []
  | .ok text =>
    (includeNames text).flatMap fun name =>
      (Expander.searchPaths ctx file.text).map (·.join (.ofString name))

partial def gatherIncludes (settings : Settings) (disk : Disk) (seen : List Place) : List Path → IO Disk
  | [] => return disk
  | file :: rest => do
    let place := disk.resolve file
    if place ∈ seen then gatherIncludes settings disk seen rest
    else
      let found := candidates ⟨settings, disk⟩ file
      let mut disk := disk
      for path in found do
        disk ← gather disk path
      let reached := disk
      gatherIncludes settings disk (place :: seen) (found.filter reached.isFile ++ rest)

def variableNames : List String :=
  ["TALASM_INCLUDE_PATH", "TALASM_LOAD_BASE", "TALASM_MAX_PASSES", "TALASM_MAX_INCLUDE_DEPTH",
    "TALASM_MAX_EXPANSIONS"]

def environment : IO Environment :=
  variableNames.filterMapM fun name => return (← IO.getEnv name).map (name, ·)

-- The disk as far as a command can reach it.
def reachable (arguments : List String) (env : Environment) : IO Disk := do
  let here ← IO.currentDir
  let empty : Disk := { workingDirectory := (Path.ofString here.toString).parts }
  match Command.Scan.ofArguments arguments with
  | .error _ => return empty
  | .ok scan =>
    let named := (scan.positional ++ scan.given.map (·.2)).map Path.ofString
    let disk ← named.foldlM gather empty
    let settings := (Settings.ofEnvironment env).1
    let settings := ((scan.values .includes).map Path.ofString).foldl Settings.addIncludePath settings
    gatherIncludes settings disk [] ((scan.positional.map Path.ofString).filter disk.isFile)

def store (before after : Disk) : IO Unit := do
  for (place, node) in after.entries do
    if let .file content := node then
      if before.node? place ≠ some node then
        IO.FS.writeBinFile ((← IO.currentDir) / ("/" ++ "/".intercalate place)) ⟨content.toArray⟩

end RuneAsm.Program

def main (arguments : List String) : IO UInt32 := do
  let env ← RuneAsm.Program.environment
  let disk ← RuneAsm.Program.reachable arguments env
  let outcome := RuneAsm.Command.run arguments env disk
  RuneAsm.Program.store disk outcome.disk
  IO.print outcome.stdout
  IO.eprint outcome.stderr
  return UInt32.ofNat outcome.exitCode
