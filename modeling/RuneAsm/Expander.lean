import RuneAsm.Disk
import RuneAsm.MacroTable
import RuneAsm.Reader
import RuneAsm.Settings

namespace RuneAsm

-- A pass splices in the included files and takes the bodies of macro definitions out of the program; then it replaces
-- each invocation by a copy of the body. Passes follow each other until one changes nothing, or a limit is met.

structure Stats where
  passes : Nat := 0
  rewrites : Nat := 0
  includes : Nat := 0
  definitions : Nat := 0
  expansions : Nat := 0
deriving DecidableEq, Repr

structure Context where
  settings : Settings
  disk : Disk

-- Labels, macros, journal and serial numbers are shared with the files that are included; the open files, the counters
-- and the numbering of copies are not.
structure Expander where
  symbols : SymbolTable := {}
  macros : MacroTable := {}
  journal : Journal := []
  nextId : Nat := 0
  -- Outermost first.
  chain : List Place := []
  stats : Stats := {}
  -- The number given to the latest copy of an inline subroutine.
  copies : Nat := 0
  program : List Token := []

structure Pass where
  expander : Expander
  output : Array Token := #[]
  changed : Bool := false

namespace Pass

def keep (p : Pass) (t : Token) : Pass := { p with output := p.output.push t }

def replaceBy (p : Pass) (expander : Expander) (tokens : List Token) : Pass :=
  { expander := { expander with stats.rewrites := expander.stats.rewrites + 1 }
    output := p.output ++ tokens
    changed := true }

def fail (p : Pass) (l : Location) (cause : Cause) : Run Pass := .fail p (.report ⟨cause, some l, none⟩)

def result (p : Pass) : Expander := { p.expander with program := p.output.toList }

end Pass

namespace Expander

def note (e : Expander) (event : Event) : Expander := { e with journal := event :: e.journal }

-- What follows a definition: tokens without meaning, then the bracketed body, then the rest.
structure BodySpan where
  gap : List Token
  opener : Token
  inside : List Token
  closer : Token
  rest : List Token

inductive BodyFault where
  | notBracket (found : Option String)
  | unpaired (opener : Token)

def opensBody : TokenKind → Bool
  | .groupOpen => true
  | .reference r => r.form = .subroutine
  | _ => false

def isGap (t : Token) : Bool := t.isTransparent && t.kind ≠ .groupOpen

def bodySpan (tokens : List Token) : Except BodyFault BodySpan :=
  match tokens.dropWhile isGap with
  | [] => .error (.notBracket none)
  | opener :: after =>
    if opensBody opener.kind then
      match after.dropWhile (fun t => some t.id ≠ opener.partner) with
      | [] => .error (.unpaired opener)
      | closer :: rest =>
        .ok ⟨tokens.takeWhile isGap, opener, after.takeWhile (fun t => some t.id ≠ opener.partner), closer,
          rest⟩
    else .error (.notBracket (some opener.text))

theorem bodySpan_rest_lt {tokens : List Token} {span : BodySpan} (found : bodySpan tokens = .ok span) :
    span.rest.length < tokens.length := by
  unfold bodySpan at found
  split at found
  · cases found
  · rename_i opener after rest_eq
    split at found
    · split at found
      · cases found
      · rename_i closer rest closer_eq
        cases found
        have outer := (List.dropWhile_suffix (l := tokens) isGap).length_le
        have inner := (List.dropWhile_suffix (l := after) (fun t => some t.id ≠ opener.partner)).length_le
        simp only [rest_eq, closer_eq, List.length_cons] at outer inner ⊢
        omega
    · cases found

-- The label of the brace that closed the body is no label any more.
def capture (p : Pass) (t : Token) (name : String) (span : BodySpan) : Run Pass :=
  let body := span.inside.filter (!·.isTransparent)
  let e := p.expander
  let symbols :=
    match span.closer.kind.label? with
    | some label => e.symbols.erase label
    | none => e.symbols
  match e.macros.define ⟨t.id, name, t.location, body⟩ with
  | .error earlier =>
    { p with expander := { e with symbols } }.fail t.location
      (.macroMisuse (.alreadyDefined name earlier.location))
  | .ok macros =>
    let e := { e with symbols, macros, stats.definitions := e.stats.definitions + 1 }
    let e := e.note (.captured name body.length t.location)
    .ok (p.replaceBy e ({ t with kind := .macroDefinition name true } :: span.gap))

-- A captured definition that comes by again has to be the one in the table. One that another table has captured is
-- entered with the body that it brings along.
def confirm (p : Pass) (t : Token) (name : String) : Run Pass :=
  let macros := p.expander.macros
  match macros.define ⟨t.id, name, t.location, macros.broughtBy t.id⟩ with
  | .error earlier => p.fail t.location (.macroMisuse (.alreadyDefined name earlier.location))
  | .ok macros => .ok ({ p with expander.macros := macros }.keep t)

-- The directories in which an include is looked for: that of the including file, if it is one, then the configured
-- ones, then the working directory.
def searchPaths (ctx : Context) (file : String) : List Path :=
  (if file = "<input>" then [] else [(Path.ofString file).parent]) ++
    ctx.settings.includePaths.map SearchDirectory.toPath ++ [ctx.disk.working]

def findFile (ctx : Context) (name file : String) : Option Path :=
  let path := Path.ofString name
  if path.isAbsolute then if ctx.disk.isFile path then some path else none
  else ((searchPaths ctx file).map (·.join path)).find? ctx.disk.isFile

-- In a scope of its own.
def read (settings : Settings) (source : List Char) (file : String) (e : Expander) : Run Expander :=
  let reader : Reader :=
    { file, source, checkComments := settings.commentWarnings, scope := {}
      symbols := e.symbols, journal := e.journal, nextId := e.nextId }
  match reader.run with
  | .ok r =>
    .ok { e with symbols := r.symbols, journal := r.journal, nextId := r.nextId, program := r.tokens.toList }
  | .error stop =>
    let r := stop.state
    .fail { e with symbols := r.symbols, journal := r.journal, nextId := r.nextId } stop.failure

def nested (e : Expander) (place : Place) : Expander :=
  { e with chain := e.chain ++ [place], stats := {}, copies := 0, program := [] }

def absorb (e inner : Expander) : Expander :=
  { e with symbols := inner.symbols, macros := inner.macros, journal := inner.journal, nextId := inner.nextId }

-- Passes and rewrites are counted level by level.
def addStats (e : Expander) (inner : Stats) : Expander :=
  { e with
    stats.includes := e.stats.includes + 1 + inner.includes
    stats.definitions := e.stats.definitions + inner.definitions
    stats.expansions := e.stats.expansions + inner.expansions }

-- The way down is missing when no further file may be opened.
def splice (ctx : Context) (down : Option (Expander → Run Expander)) (t : Token) (name : String)
    (p : Pass) : Run Pass :=
  match findFile ctx name t.location.file with
  | none =>
    p.fail t.location
      (.inclusion name .notFound ((searchPaths ctx t.location.file).map (·.text)))
  | some path =>
    if ctx.disk.resolve path ∈ p.expander.chain then p.fail t.location (.inclusion name .circular [])
    else match down with
      | none => p.fail t.location (.inclusion name (.tooDeep ctx.settings.maxIncludeDepth) [])
      | some enter =>
        match ctx.disk.readText path with
        | .error f => p.fail t.location (.inclusion name (.unreadable f.message) [])
        | .ok source =>
          let inner := (p.expander.note (.including path.text t.location)).nested (ctx.disk.resolve path)
          match (inner.read ctx.settings source path.text).andThen enter with
          | .ok inner =>
            .ok (p.replaceBy ((p.expander.absorb inner).addStats inner.stats) inner.program)
          | .error stop => .fail { p with expander := p.expander.absorb stop.state } stop.failure

def rewrite (ctx : Context) (down : Option (Expander → Run Expander)) : List Token → Pass → Run Pass
  | [], p => .ok p
  | t :: rest, p =>
    match t.kind with
    | .inclusion name => (splice ctx down t name p).andThen (rewrite ctx down rest)
    | .macroDefinition name true => (confirm p t name).andThen (rewrite ctx down rest)
    | .macroDefinition name false =>
      match _found : bodySpan rest with
      | .error (.notBracket found) => p.fail t.location (.macroMisuse (.noBody name found))
      | .error (.unpaired opener) => .fail p (.unpairedBracket opener.location)
      | .ok span => (capture p t name span).andThen (rewrite ctx down span.rest)
    | _ => rewrite ctx down rest (p.keep t)
termination_by tokens => tokens.length
decreasing_by
  all_goals first
    | exact Nat.lt_succ_self _
    | exact Nat.lt_succ_of_lt (bodySpan_rest_lt _found)

-- The first number from a given one on that makes a new label of a name. As many names as the table has can be taken.
def freeNumber (symbols : SymbolTable) (label : String) : Nat → Nat → Nat
  | 0, n => n
  | tries + 1, n =>
    if symbols.contains s!"{label}#{n}" then freeNumber symbols label tries (n + 1) else n

-- The latest first.
structure Copying where
  expander : Expander
  renamed : List (String × String) := []

def renameCloser (c : Copying) (t : Token) : Run Copying :=
  match t.kind with
  | .subroutineClose label =>
    let e := c.expander
    let n := freeNumber e.symbols label e.symbols.size (e.copies + 1)
    let fresh := s!"{label}#{n}"
    match e.symbols.define fresh t.location true with
    | .ok symbols =>
      let e := { e with symbols, copies := n }
      .ok ⟨e.note (.defined fresh t.location), (label, fresh) :: c.renamed⟩
    | .error earlier =>
      .fail { c with expander := { e with copies := n } }
        (.report ⟨.duplicateLabel fresh (some earlier.location), some t.location, none⟩)
  | _ => .ok c

def Copying.label (c : Copying) (label : String) : String := (c.renamed.lookup label).getD label

-- Tokens equal to the given ones but for their serial numbers, which start at the base. Partners stay partners.
def freshCopy (base : Nat) (body : List Token) : List Token :=
  body.mapIdx fun i t =>
    { t with
      id := base + i
      partner := t.partner.bind fun partner => (body.findIdx? (·.id = partner)).map (base + ·) }

def expandMacro (m : Macro) (t : Token) (p : Pass) : Run Pass :=
  match Run.each renameCloser ⟨p.expander, []⟩ m.body with
  | .error stop => .fail { p with expander := stop.state.expander } stop.failure
  | .ok copying =>
    let e := copying.expander
    let body := (freshCopy e.nextId m.body).map
      (fun t => { t with kind := t.kind.mapLabel copying.label })
    let e := { e with nextId := e.nextId + m.body.length, stats.expansions := e.stats.expansions + 1 }
    .ok (p.replaceBy (e.note (.expanded m.name t.location)) body)

-- A bare word that names one.
def invoked? (macros : MacroTable) (t : Token) : Option Macro :=
  match t.kind with
  | .reference r => if r.form = .call then r.target.label?.bind macros.find? else none
  | _ => none

def unwrapToken (limit : Int) (p : Pass) (t : Token) : Run Pass :=
  match invoked? p.expander.macros t with
  | none => .ok (p.keep t)
  | some m =>
    if limit ≤ p.expander.stats.expansions then
      p.fail t.location (.macroMisuse (.tooManyExpansions limit m.name))
    else expandMacro m t p

-- Once each.
def unwrap (limit : Int) (e : Expander) : Run Pass :=
  if e.macros.isEmpty then .ok { expander := e, output := e.program.toArray }
  else Run.each (unwrapToken limit) { expander := e } e.program

def countPass (e : Expander) : Expander := { e with stats.passes := e.stats.passes + 1 }

-- The last pass has to change nothing.
def settle (ctx : Context) (down : Option (Expander → Run Expander)) : Nat → Expander → Run Expander
  | 0, e =>
    .fail e (.report ⟨.macroMisuse (.noFixedPoint ctx.settings.maxPasses), none, none⟩)
  | passes + 1, e =>
    match rewrite ctx down e.program { expander := e.countPass } with
    | .error stop => .fail stop.state.expander stop.failure
    | .ok rewritten =>
      match unwrap ctx.settings.maxExpansions rewritten.result with
      | .error stop => .fail stop.state.expander stop.failure
      | .ok unwrapped =>
        let e := unwrapped.result
        if rewritten.changed || unwrapped.changed then settle ctx down passes e
        else .ok (e.note (.stable e.stats.passes e.stats.rewrites))

-- There is room for so many more files to be open at once.
def expand (ctx : Context) : Nat → Expander → Run Expander
  | 0 => settle ctx none ctx.settings.maxPasses.toNat
  | room + 1 => settle ctx (some (expand ctx room)) ctx.settings.maxPasses.toNat

def room (ctx : Context) (e : Expander) : Nat := (ctx.settings.maxIncludeDepth - e.chain.length).toNat

def process (ctx : Context) (e : Expander) : Run Expander := expand ctx (room ctx e) e

def processSource (ctx : Context) (source : List Char) (file : String) (e : Expander) : Run Expander :=
  (e.read ctx.settings source file).andThen (process ctx)

-- The file counts as open, once.
def processFile (ctx : Context) (path : Path) (e : Expander) : Run Expander :=
  let place := ctx.disk.resolve path
  let e := if place ∈ e.chain then e else { e with chain := e.chain ++ [place] }
  match ctx.disk.readText path with
  | .error f => .fail e f
  | .ok source => processSource ctx source path.text e

end Expander

end RuneAsm
