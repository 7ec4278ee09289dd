import Mathlib
import RuneAsm.Proofs.Recursion
import RuneAsm.Proofs.Stability

namespace RuneAsm

open Run

-- How many passes and expansions a program takes. Once all bodies have been taken out, each pass goes one level further
-- down in the nesting of invocations, and the last one finds nothing to do; so the limits that suffice are known from
-- the text before the first pass. If a macro comes back to itself, no limits suffice.

def TokenKind.defines? : TokenKind → Option String
  | .macroDefinition name _ => some name
  | _ => none

def TokenKind.isInclusion : TokenKind → Bool
  | .inclusion _ => true
  | _ => false

theorem isInclusion_eq_false {kind : TokenKind} : kind.isInclusion = false ↔ ∀ name, kind ≠ .inclusion name := by
  cases kind <;> simp [TokenKind.isInclusion]

namespace Expander

variable {ctx : Context} {down : Option (Expander → Run Expander)} {macros : MacroTable} {bodies : Bodies}
variable {e after : Expander} {p q r : Pass} {t : Token} {tokens foreign rest : List Token} {name : String} {limit : Int}

-- The names that are defined, as often as they are.
def defined (tokens : List Token) : List String := tokens.filterMap (·.kind.defines?)

-- Every definition has a bracket behind it, with nothing but blanks between.
def bracketed : List Token → Bool
  | [] => true
  | t :: rest =>
    (match t.kind with
      | .macroDefinition _ false => (rest.dropWhile isGap).head?.any (opensBody ·.kind)
      | _ => true) && bracketed rest

-- Without included files, and with definitions that have a name and a body of their own and no others in it.
structure Formed (tokens : List Token) : Prop where
  noInclusion : ∀ t ∈ tokens, ∀ name, t.kind ≠ .inclusion name
  bracketed : bracketed tokens = true
  flat : ∀ entry ∈ (outline tokens).bodies, ∀ t ∈ entry.2, t.kind.defines? = none
  distinct : (defined tokens).Nodup

instance : DecidablePred Formed := fun tokens =>
  decidable_of_iff ((tokens.all fun t => !t.kind.isInclusion) = true ∧ bracketed tokens = true ∧
      ((outline tokens).bodies.all fun entry => entry.2.all fun t => t.kind.defines?.isNone) = true ∧ (defined tokens).Nodup)
    (by simp only [List.all_eq_true, Bool.not_eq_true', isInclusion_eq_false, Option.isNone_iff_eq_none]
        exact ⟨fun ⟨noInclusion, bracketed, flat, distinct⟩ => ⟨noInclusion, bracketed, flat, distinct⟩,
          fun formed => ⟨formed.noInclusion, formed.bracketed, formed.flat, formed.distinct⟩⟩)

theorem Formed.undefined (formed : Formed tokens) :
    ∀ entry ∈ (outline tokens).bodies, ∀ t ∈ entry.2, ∀ name, t.kind ≠ .macroDefinition name false := by
  intro entry there t member name kind
  have none := formed.flat entry there t member
  simp [kind, TokenKind.defines?] at none

theorem defined_append (early late : List Token) : defined (early ++ late) = defined early ++ defined late := by
  simp [defined]

theorem defined_sublist {fewer : List Token} (sublist : fewer.Sublist tokens) : (defined fewer).Sublist (defined tokens) :=
  sublist.filterMap _

theorem mem_defined {captured : Bool} (member : t ∈ tokens) (kind : t.kind = .macroDefinition name captured) :
    name ∈ defined tokens := List.mem_filterMap.mpr ⟨t, member, by simp [kind, TokenKind.defines?]⟩

theorem find?_captured (e : Expander) (t : Token) (name other : String) (span : BodySpan) :
    (captured e t name span).macros.find? other =
      (e.macros.find? other).or (if name = other then some (span.macroOf t name) else none) :=
  MacroTable.find?_enter e.macros (span.macroOf t name) other

-- No name is defined twice in a pass under way, and what was taken out before is in the table.
structure Apart (rest : List Token) (p : Pass) : Prop where
  names : (defined (p.output.toList ++ rest)).Nodup
  new : ∀ name ∈ defined rest, p.expander.macros.find? name = none
  confirmed : ∀ t ∈ p.output.toList, Confirmed p.expander.macros t

theorem Apart.keep (apart : Apart (t :: rest) p) (noCaptured : ∀ name, t.kind ≠ .macroDefinition name true) :
    Apart rest (p.keep t) := by
  have output : (p.keep t).output.toList = p.output.toList ++ [t] := by simp [Pass.keep]
  refine ⟨?_, ?_, ?_⟩
  · rw [output, List.append_assoc]
    exact apart.names
  · intro name member
    exact apart.new name ((defined_sublist (List.sublist_cons_self t rest)).subset member)
  · rw [output]
    intro u member
    rcases List.mem_append.mp member with old | here
    · exact apart.confirmed u old
    · obtain rfl := List.mem_singleton.mp here
      exact fun name kind => absurd kind (noCaptured name)

theorem Apart.capture {span : BodySpan} (apart : Apart (t :: rest) p) (kind : t.kind = .macroDefinition name false)
    (fits : span.Fits rest) : Apart span.rest
      (p.replaceBy (captured p.expander t name span) ({ t with kind := .macroDefinition name true } :: span.gap)) := by
  have output : (p.replaceBy (captured p.expander t name span)
      ({ t with kind := .macroDefinition name true } :: span.gap)).output.toList =
        p.output.toList ++ { t with kind := .macroDefinition name true } :: span.gap := by simp [Pass.replaceBy]
  have table (other : String) : (p.replaceBy (captured p.expander t name span)
      ({ t with kind := .macroDefinition name true } :: span.gap)).expander.macros.find? other =
        (p.expander.macros.find? other).or (if name = other then some (span.macroOf t name) else none) :=
    find?_captured p.expander t name other span
  have fewer : (span.gap ++ span.rest).Sublist rest := by
    rw [fits.parts]
    exact List.Sublist.append_left (((List.sublist_cons_self _ _).trans (List.sublist_append_right _ _)).cons _) _
  have names : (defined p.output.toList ++ name :: defined rest).Nodup := by
    have all := apart.names
    rwa [defined_append, show defined (t :: rest) = name :: defined rest by simp [defined, kind, TokenKind.defines?]] at all
  obtain ⟨_, restNames, separate⟩ := List.nodup_append.mp names
  refine ⟨?_, ?_, ?_⟩
  · have same : defined (p.output.toList ++ { t with kind := .macroDefinition name true } :: span.gap ++ span.rest) =
        defined p.output.toList ++ name :: defined (span.gap ++ span.rest) := by
      simp [defined, TokenKind.defines?]
    rw [output, same]
    exact names.sublist (List.Sublist.append_left ((defined_sublist fewer).cons_cons name) _)
  · intro other member
    have later : other ∈ defined rest := (defined_sublist ((List.sublist_append_right _ _).trans fewer)).subset member
    have different : name ≠ other := by
      rintro rfl
      exact (List.nodup_cons.mp restNames).1 later
    rw [table, apart.new other ((defined_sublist (List.sublist_cons_self t rest)).subset later), if_neg different]
    rfl
  · rw [output]
    intro u member other uKind
    rw [table]
    rcases List.mem_append.mp member with old | recent
    · obtain ⟨m, found, same⟩ := apart.confirmed u old other uKind
      exact ⟨m, by rw [found, Option.some_or], same⟩
    · rcases List.mem_cons.mp recent with rfl | inGap
      · cases uKind
        rw [apart.new name (mem_defined List.mem_cons_self kind), if_pos rfl]
        exact ⟨_, rfl, rfl⟩
      · have blank := fits.gap u inGap
        simp [isGap, Token.isTransparent, TokenKind.isTransparent, uKind] at blank

-- So many more expansions are no more than the limit lets through; none are always let through.
def Allows (limit : Int) (spent more : Nat) : Prop := more = 0 ∨ (spent + more : Int) ≤ limit

theorem allows_add {spent more later : Nat} :
    Allows limit spent (more + later) ↔ Allows limit spent more ∧ Allows limit (spent + more) later := by
  unfold Allows
  omega

-- What so many expansions do to a pass under way.
structure Spends (limit : Int) (p : Pass) (count : Nat) (q : Pass) : Prop where
  allowed : Allows limit p.expander.stats.expansions count
  expansions : q.expander.stats.expansions = p.expander.stats.expansions + count
  passes : q.expander.stats.passes = p.expander.stats.passes
  macros : q.expander.macros = p.expander.macros
  changed : q.changed = true ↔ p.changed = true ∨ count ≠ 0

theorem Spends.trans {count more : Nat} (first : Spends limit p count q) (second : Spends limit q more r) :
    Spends limit p (count + more) r := by
  refine ⟨allows_add.mpr ⟨first.allowed, first.expansions ▸ second.allowed⟩, ?_, ?_, ?_, ?_⟩
  · rw [second.expansions, first.expansions, Nat.add_assoc]
  · rw [second.passes, first.passes]
  · rw [second.macros, first.macros]
  · have some : count + more ≠ 0 ↔ count ≠ 0 ∨ more ≠ 0 := by omega
    rw [second.changed, first.changed, or_assoc, some]

-- A level of nesting is a pass, and there is one more that changes nothing. The first half of the first pass may
-- have changed something where no invocation is left.
def passesFor (rewritten : Bool) (depth : Nat) : Nat := (if rewritten then max depth 1 else depth) + 1

-- The limits suffice for every invocation, and so many passes and expansions were counted.
def Finished (limit : Int) (bodies : Bodies) (xs : List Face) (rewritten : Bool) (passes : Nat) (before : Stats)
    (after : Expander) : Prop :=
  ∀ d n, bodies.Unfolds xs d n → passesFor rewritten d ≤ passes ∧ Allows limit before.expansions n ∧
    after.stats.passes = before.passes + passesFor rewritten d ∧ after.stats.expansions = before.expansions + n

section Text

variable {source : List Char} {file : String} {journal : Journal} {lexed : Expander}

end Text

end Expander

namespace Expander

end Expander

end RuneAsm
