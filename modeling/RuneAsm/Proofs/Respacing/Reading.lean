import Mathlib
import RuneAsm.Proofs.Alike
import RuneAsm.Proofs.Custody

namespace RuneAsm

open Run

-- Two texts that differ in their spacing only are read alike: token by token the same, but for the labels of inline
-- subroutines, which come from lines and columns.

variable {σ : String → String} {kind : TokenKind}

theorem mapLabel_isSpacing : (kind.mapLabel σ).isSpacing = kind.isSpacing := by
  cases kind with
  | reference r =>
    rw [mapLabel_reference]
    rfl
  | _ => rfl

def unspaced (tokens : List Token) : List Token := tokens.filter (!·.kind.isSpacing)

@[simp] theorem unspaced_append (early late : List Token) : unspaced (early ++ late) = unspaced early ++ unspaced late :=
  List.filter_append ..

theorem unspaced_cons_of_spacing {t : Token} (rest : List Token) (spacing : t.kind.isSpacing = true) :
    unspaced (t :: rest) = unspaced rest := by
  simp [unspaced, spacing]

theorem unspaced_cons_of_solid {t : Token} (rest : List Token) (solid : t.kind.isSpacing = false) :
    unspaced (t :: rest) = t :: unspaced rest := by
  simp [unspaced, solid]

-- A comment that is not closed is no spacing to be passed over: no text is read past it.
def Lexeme.Finished : Lexeme → Prop
  | .comment _ closed => closed = true
  | _ => True

namespace Reader

variable {r r' : Reader} {text word rest : List Char} {c first : Char}

structure Twin (σ : String → String) (t t' : Token) : Prop where
  kind : t'.kind = t.kind.mapLabel σ
  uncaptured : t.kind.isCaptured = false

abbrev Twins (σ : String → String) (tokens tokens' : List Token) : Prop :=
  List.Forall₂ (Twin σ) (unspaced tokens) (unspaced tokens')

structure Frame.Like (σ : String → String) (f f' : Frame) : Prop where
  before : Twins σ f.before.toList f'.before.toList
  opener : Twin σ f.opener f'.opener

-- Serial numbers, places and the journal may differ, and the tokens that are spacing.
structure Like (σ : String → String) (r r' : Reader) : Prop where
  file : r'.file = r.file
  scope : r'.scope.parent.map (·.1) = r.scope.parent.map (·.1)
  symbols : SymbolTable.Like σ r.symbols r'.symbols
  latest : Twins σ r.latest.toList r'.latest.toList
  frames : List.Forall₂ (Frame.Like σ) r.frames r'.frames

theorem Twin.singleton {t t' : Token} (twin : Twin σ t t') : Twins σ [t] [t'] := by
  have same : t'.kind.isSpacing = t.kind.isSpacing := by rw [twin.kind, mapLabel_isSpacing]
  cases spacing : t.kind.isSpacing with
  | true => simp [Twins, unspaced, same, spacing]
  | false => simpa [Twins, unspaced, same, spacing] using twin

theorem Twins.append {a a' b b' : List Token} (first : Twins σ a a') (second : Twins σ b b') :
    Twins σ (a ++ b) (a' ++ b') := by
  simpa [Twins] using List.rel_append first second

theorem like_fail {related : Reader → Reader → Prop} {cause cause' : Cause} (same : cause.kind = cause'.kind) :
    Alike related (r.fail cause) (r'.fail cause') := alike_fail same

theorem push_like (like : Like σ r r') (same : kind.mapLabel σ = kind) (uncaptured : kind.isCaptured = false) :
    Alike (Like σ) (r.push text kind) (r'.push text kind) := by
  have twin : Twin σ (r.token text kind) (r'.token text kind) := ⟨same.symm, uncaptured⟩
  refine ⟨like.file, like.scope, like.symbols, ?_, like.frames⟩
  simpa using like.latest.append twin.singleton

theorem open_like (like : Like σ r r') (same : kind.mapLabel σ = kind) (uncaptured : kind.isCaptured = false) :
    Alike (Like σ) (r.openBracket text kind) (r'.openBracket text kind) := by
  have twin : Twin σ (r.token text kind) (r'.token text kind) := ⟨same.symm, uncaptured⟩
  exact ⟨like.file, like.scope, like.symbols, .nil, .cons ⟨like.latest, twin⟩ like.frames⟩

theorem define_like (renames : Renaming σ) (like : Like σ r r') {x x' : String} {anonymous : Bool}
    (renamed : x' = σ x) (plain : anonymous = false → Plain x) :
    Alike (Like σ) (r.define x anonymous) (r'.define x' anonymous) := by
  subst renamed
  unfold define
  rcases like.symbols.define renames x plain r.location r'.location with
    ⟨s, s', failed, failed'⟩ | ⟨symbols, symbols', defined, defined', next⟩
  · rw [failed, failed']
    exact like_fail rfl
  · rw [defined, defined']
    exact ⟨like.file, like.scope, next, like.latest, like.frames⟩

theorem twin_closedBy {o o' : Token} (twin : Twin σ o o') (n n' : Nat) (label : Option String) :
    Twin σ (o.closedBy n label) (o'.closedBy n' (label.map σ)) := by
  obtain ⟨same, uncaptured⟩ := twin
  unfold Token.closedBy
  cases kind : o.kind with
  | reference ref =>
    rw [kind] at same
    cases target : ref.target <;> simp only [TokenKind.mapLabel, target] at same <;> rw [same] <;>
      exact ⟨rfl, rfl⟩
  | _ =>
    rw [kind] at same uncaptured
    simp only [TokenKind.mapLabel] at same
    simp only [same]
    exact ⟨rfl, uncaptured⟩

theorem pair_like (like : Like σ r r') {frame frame' : Frame} {outer outer' : List Frame}
    (frames : Frame.Like σ frame frame') (outers : List.Forall₂ (Frame.Like σ) outer outer') {kind' : TokenKind}
    (same : kind' = kind.mapLabel σ) (uncaptured : kind.isCaptured = false) :
    Like σ (r.pair frame outer text kind) (r'.pair frame' outer' text kind') := by
  refine ⟨like.file, like.scope, like.symbols, ?_, outers⟩
  have opener : Twins σ [frame.opener.closedBy r.nextId kind.label?]
      [frame'.opener.closedBy r'.nextId (kind.label?.map σ)] := (twin_closedBy frames.opener _ _ _).singleton
  have closer : Twin σ { r.token text kind with partner := some frame.opener.id }
      { r'.token text kind' with partner := some frame'.opener.id } := ⟨same, uncaptured⟩
  have label : kind'.label? = kind.label?.map σ := by rw [same, mapLabel_label?]
  have whole := ((frames.before.append opener).append like.latest).append closer.singleton
  simpa [pair, label, token, location] using whole

theorem closeBracket_like (renames : Renaming σ) (like : Like σ r r')
    (brace : c = '\x7d' → Token.anonymousLabel r'.location = σ (Token.anonymousLabel r.location))
    (closing : c = ']' ∨ c = '\x7d') : Alike (Like σ) (r.closeBracket c) (r'.closeBracket c) := by
  have frames := like.frames
  unfold closeBracket
  cases here : r.frames with
  | nil =>
    rw [here] at frames
    rw [List.forall₂_nil_left_iff.mp frames]
    exact like_fail rfl
  | cons frame outer =>
    rw [here] at frames
    obtain ⟨frame', outer', innermost, outers, there⟩ := List.forall₂_cons_left_iff.mp frames
    have closer : frame'.opener.kind.closer? = frame.opener.kind.closer? := by
      rw [innermost.opener.kind, mapLabel_closer?]
    rw [there]
    dsimp only
    rw [closer]
    by_cases other : frame.opener.kind.closer? ≠ some c
    · rw [if_pos other, if_pos other]
      exact like_fail rfl
    · rw [if_neg other, if_neg other]
      by_cases group : c = ']'
      · rw [if_pos group, if_pos group]
        exact pair_like like innermost outers rfl rfl
      · rw [if_neg group, if_neg group]
        have label := brace (closing.resolve_left group)
        refine (define_like renames like label (by simp)).andThen ?_
        intro next next' after
        exact pair_like after innermost outers (by rw [label]; rfl) rfl

theorem bracket_like (renames : Renaming σ) (like : Like σ r r')
    (brace : c = '\x7d' → Token.anonymousLabel r'.location = σ (Token.anonymousLabel r.location))
    (isBracket : isBracket c = true) : Alike (Like σ) (r.bracket c) (r'.bracket c) := by
  unfold bracket
  by_cases square : c = '['
  · rw [if_pos square, if_pos square]
    exact open_like like rfl rfl
  · rw [if_neg square, if_neg square]
    by_cases curly : c = '\x7b'
    · rw [if_pos curly, if_pos curly]
      exact open_like like rfl rfl
    · rw [if_neg curly, if_neg curly]
      refine closeBracket_like renames like brace ?_
      simpa [RuneAsm.isBracket, square, curly] using isBracket

theorem padding_like (like : Like σ r r') {make : Int → TokenKind}
    (same : ∀ n : Nat, (make n).mapLabel σ = make n ∧ (make n).isCaptured = false) :
    Alike (Like σ) (r.padding word rest make) (r'.padding word rest make) := by
  unfold padding
  cases number? rest with
  | some n => exact push_like like (same n).1 (same n).2
  | none => exact like_fail rfl

theorem literal_like (like : Like σ r r') : Alike (Like σ) (r.literal word rest) (r'.literal word rest) := by
  unfold literal
  cases number? rest with
  | some n => exact push_like like rfl rfl
  | none => exact like_fail rfl

theorem named_like (like : Like σ r r') {make : String → TokenKind}
    (same : ∀ name, (make name).mapLabel σ = make name ∧ (make name).isCaptured = false) :
    Alike (Like σ) (r.named first word rest make) (r'.named first word rest make) := by
  unfold named
  by_cases empty : rest.isEmpty = true
  · rw [if_pos empty, if_pos empty]
    exact like_fail rfl
  · rw [if_neg empty, if_neg empty]
    exact push_like like (same _).1 (same _).2

theorem enter_like (like : Like σ r r') (name : String) : Like σ (r.enter name) (r'.enter name) :=
  ⟨like.file, rfl, like.symbols, like.latest, like.frames⟩

theorem declareParent_like (renames : Renaming σ) (like : Like σ r r') {parent label : String}
    {implied : Option String} (plain : Plain label) :
    Alike (Like σ)
      (((r.enter parent).define label false).andThen fun r => r.push word (.parentLabel label implied))
      (((r'.enter parent).define label false).andThen fun r => r.push word (.parentLabel label implied)) := by
  have same := renames.plain label plain
  refine (define_like renames (enter_like like parent) same.symm fun _ => plain).andThen ?_
  intro next next' after
  exact push_like after (by simp [TokenKind.mapLabel, same]) rfl

theorem parentLabel_like (renames : Renaming σ) (like : Like σ r r') (plain : ∀ c ∈ rest, isBlank c = false) :
    Alike (Like σ) (r.parentLabel word rest) (r'.parentLabel word rest) := by
  have labelPlain : Plain (String.ofList rest) := plain_ofList.mpr plain
  have parentPlain : Plain (String.ofList (rest.takeWhile (· ≠ '/'))) :=
    plain_ofList.mpr fun c member => plain c (List.takeWhile_sublist _ |>.subset member)
  have parentSame := renames.plain _ parentPlain
  have known : r'.symbols.contains (String.ofList (rest.takeWhile (· ≠ '/'))) =
      r.symbols.contains (String.ofList (rest.takeWhile (· ≠ '/'))) := by
    have moved := like.symbols.contains renames (x := String.ofList (rest.takeWhile (· ≠ '/')))
    rwa [parentSame] at moved
  unfold parentLabel
  dsimp only
  rw [known]
  split
  · exact like_fail rfl
  · split
    · split
      · exact like_fail rfl
      · split
        · exact declareParent_like renames like labelPlain
        · refine (define_like renames like parentSame.symm fun _ => parentPlain).andThen ?_
          intro next next' after
          exact declareParent_like renames after labelPlain
    · exact declareParent_like renames like labelPlain

theorem qualify_like (like : Like σ r r') (child : String) : r'.scope.qualify child = r.scope.qualify child := by
  have same := like.scope
  unfold Scope.qualify
  cases here : r.scope.parent <;> cases there : r'.scope.parent <;> simp_all

theorem childLabel_like (renames : Renaming σ) (like : Like σ r r') (inScope : InScope r.scope)
    (plain : ∀ c ∈ rest, isBlank c = false) : Alike (Like σ) (r.childLabel word rest) (r'.childLabel word rest) := by
  unfold childLabel
  dsimp only
  rw [qualify_like like]
  split
  · exact like_fail rfl
  · cases qualified : r.scope.qualify (String.ofList rest) with
    | none => exact like_fail rfl
    | some label =>
      have labelPlain := plain_qualify inScope (plain_ofList.mpr plain) qualified
      have same := renames.plain label labelPlain
      refine (define_like renames like same.symm fun _ => labelPlain).andThen ?_
      intro next next' after
      exact push_like after (by simp [TokenKind.mapLabel, same]) rfl

theorem reference_like (renames : Renaming σ) (like : Like σ r r') (inScope : InScope r.scope) {form : ReferenceForm}
    (plain : ∀ c ∈ rest, isBlank c = false) :
    Alike (Like σ) (r.reference form first word rest) (r'.reference form first word rest) := by
  have named (label : String) (labelPlain : Plain label) :
      Alike (Like σ) (r.push word (.reference (form.to (.named label))))
        (r'.push word (.reference (form.to (.named label)))) :=
    push_like like (by simp [TokenKind.mapLabel, ReferenceForm.to, renames.plain label labelPlain]) rfl
  unfold reference
  split
  · exact like_fail rfl
  · exact open_like like rfl rfl
  · rename_i c later _
    rw [qualify_like like]
    split
    · cases qualified : r.scope.qualify (String.ofList later) with
      | none => exact like_fail rfl
      | some label =>
        have laterPlain := plain_ofList.mpr fun c member => plain c (List.mem_cons_of_mem _ member)
        exact named label (plain_qualify inScope laterPlain qualified)
    · exact named _ (plain_ofList.mpr plain)

theorem runeWord_like (renames : Renaming σ) (like : Like σ r r') (inScope : InScope r.scope) {rune : Rune}
    (plain : ∀ c ∈ rest, isBlank c = false) : Alike (Like σ) (r.runeWord rune first rest) (r'.runeWord rune first rest) := by
  unfold runeWord
  cases rune with
  | literalHex => exact literal_like like
  | rawText => exact push_like like rfl rfl
  | padAbsolute => exact padding_like like fun _ => ⟨rfl, rfl⟩
  | padRelative => exact padding_like like fun _ => ⟨rfl, rfl⟩
  | retarget => exact padding_like like fun _ => ⟨rfl, rfl⟩
  | parentLabel => exact parentLabel_like renames like plain
  | childLabel => exact childLabel_like renames like inScope plain
  | reference form => exact reference_like renames like inScope plain
  | inclusion => exact named_like like fun _ => ⟨rfl, rfl⟩
  | macroDefinition => exact named_like like fun _ => ⟨rfl, rfl⟩

theorem plainWord_like (renames : Renaming σ) (like : Like σ r r') (inScope : InScope r.scope)
    (plain : ∀ c ∈ first :: rest, isBlank c = false) : Alike (Like σ) (r.plainWord first rest) (r'.plainWord first rest) := by
  unfold plainWord
  dsimp only
  split
  · exact push_like like rfl rfl
  · split
    · exact push_like like rfl rfl
    · exact reference_like renames like inScope plain

theorem word_like (renames : Renaming σ) (like : Like σ r r') (inScope : InScope r.scope)
    (plain : ∀ c ∈ first :: rest, isBlank c = false) : Alike (Like σ) (r.word first rest) (r'.word first rest) := by
  unfold Reader.word
  split
  · exact like_fail rfl
  · split
    · exact runeWord_like renames like inScope fun c member => plain c (List.mem_cons_of_mem _ member)
    · exact plainWord_like renames like inScope plain

theorem take_like (renames : Renaming σ) (like : Like σ r r') (inScope : InScope r.scope) {lexeme : Lexeme}
    (proper : lexeme.Proper) (solid : lexeme.isSpacing = false)
    (brace : lexeme = .bracket '\x7d' → Token.anonymousLabel r'.location = σ (Token.anonymousLabel r.location)) :
    Alike (Like σ) (r.take lexeme) (r'.take lexeme) := by
  cases lexeme with
  | blank text => cases solid
  | comment text closed => cases solid
  | bracket c => exact bracket_like renames like (fun curly => brace (congrArg _ curly)) proper
  | word first rest => exact word_like renames like inScope proper.2.2

theorem take_spacing (r : Reader) {lexeme : Lexeme} (spacing : lexeme.isSpacing = true) (finished : lexeme.Finished) :
    ∃ journal kind, kind.isSpacing = true ∧ r.take lexeme =
      .ok { r with journal, latest := r.latest.push (r.token lexeme.text kind), nextId := r.nextId + 1 } := by
  cases lexeme with
  | blank text => exact ⟨r.journal, .blank, rfl, rfl⟩
  | comment text closed =>
    obtain rfl : closed = true := finished
    have taken : r.take (.comment text true) =
        (if r.checkComments then r.note (commentStyles text true) else r).push text .comment := rfl
    rw [taken]
    split <;> exact ⟨_, .comment, rfl, rfl⟩
  | bracket c => cases spacing
  | word first rest => cases spacing

theorem unspaced_push {latest : Array Token} {t : Token} (spacing : t.kind.isSpacing = true) :
    unspaced (latest.push t).toList = unspaced latest.toList := by
  simp [unspaced, spacing]

-- The place after a character.
def passed (place : Nat × Nat) (c : Char) : Nat × Nat := if c = '\n' then (place.1 + 1, 1) else (place.1, place.2 + 1)

def place (r : Reader) : Nat × Nat := (r.line, r.column)

theorem place_foldl_advance (text : List Char) (r : Reader) : (text.foldl advance r).place = text.foldl passed r.place := by
  induction text generalizing r with
  | nil => rfl
  | cons c rest ih =>
    rw [List.foldl_cons, List.foldl_cons, ih]
    congr 1
    unfold advance passed place
    split <;> rfl

-- The labels that the closing braces among the lexemes get.
def braces (file : String) : Nat × Nat → List Lexeme → List String
  | _, [] => []
  | place, lexeme :: rest =>
    (if lexeme = .bracket '\x7d' then [Token.anonymousLabel ⟨file, place.1, place.2⟩] else []) ++
      braces file (lexeme.text.foldl passed place) rest

theorem Taken.stays {next : Reader} {spacing : Bool} (taken : Taken r text spacing next) :
    next.place = r.place ∧ next.file = r.file := by
  cases taken <;> exact ⟨rfl, rfl⟩

theorem like_moved {line column line' column' : Nat} (like : Like σ r r') :
    Like σ { r with line, column } { r' with line := line', column := column' } :=
  ⟨like.file, like.scope, like.symbols, like.latest, like.frames⟩

-- Two readers at places from which the lexemes to come agree but for spacing, and their labels by the renaming.
structure Abreast (σ : String → String) (lexemes lexemes' : List Lexeme) (r r' : Reader) : Prop where
  like : Like σ r r'
  inScope : InScope r.scope
  proper : ∀ lexeme ∈ lexemes, lexeme.Proper
  finished : ∀ lexeme ∈ lexemes, lexeme.Finished
  finished' : ∀ lexeme ∈ lexemes', lexeme.Finished
  labels : (braces r.file r.place lexemes).map σ = braces r'.file r'.place lexemes'

variable {lexeme : Lexeme} {lexemes lexemes' : List Lexeme}

theorem braces_spacing {file : String} {place : Nat × Nat} (spacing : lexeme.isSpacing = true) :
    braces file place (lexeme :: lexemes) = braces file (lexeme.text.foldl passed place) lexemes := by
  have other : lexeme ≠ .bracket '\x7d' := by
    rintro rfl
    cases spacing
  simp [braces, other]

theorem step_spacing (r : Reader) (spacing : lexeme.isSpacing = true) (finished : lexeme.Finished) :
    ∃ next, r.step lexeme = .ok next ∧ next.place = lexeme.text.foldl passed r.place ∧ next.file = r.file ∧
      next.scope = r.scope ∧ next.symbols = r.symbols ∧ next.frames = r.frames ∧
      unspaced next.latest.toList = unspaced r.latest.toList := by
  obtain ⟨journal, kind, isSpacing, taken⟩ := take_spacing r spacing finished
  unfold step
  rw [taken]
  refine ⟨_, rfl, ?_, ?_⟩
  · exact place_foldl_advance lexeme.text _
  · obtain ⟨line, column, moved⟩ := foldl_advance lexeme.text
      { r with journal, latest := r.latest.push (r.token lexeme.text kind), nextId := r.nextId + 1 }
    beta_reduce
    rw [moved]
    exact ⟨rfl, rfl, rfl, rfl, unspaced_push isSpacing⟩

theorem abreast_left (abreast : Abreast σ (lexeme :: lexemes) lexemes' r r') (spacing : lexeme.isSpacing = true) :
    ∃ next, r.step lexeme = .ok next ∧ Abreast σ lexemes lexemes' next r' := by
  obtain ⟨next, stepped, place, file, scope, symbols, frames, latest⟩ :=
    step_spacing r spacing (abreast.finished lexeme (by simp))
  refine ⟨next, stepped, ?_, scope ▸ abreast.inScope, fun other member => abreast.proper other (by simp [member]),
    fun other member => abreast.finished other (by simp [member]), abreast.finished', ?_⟩
  · obtain ⟨sameFile, sameScope, table, tokens, nested⟩ := abreast.like
    exact ⟨by rw [file, sameFile], by rw [scope, sameScope], by rw [symbols]; exact table,
      by rw [Twins, latest]; exact tokens, by rw [frames]; exact nested⟩
  · rw [← abreast.labels, braces_spacing spacing, place, file]

theorem abreast_right (abreast : Abreast σ lexemes (lexeme :: lexemes') r r') (spacing : lexeme.isSpacing = true) :
    ∃ next, r'.step lexeme = .ok next ∧ Abreast σ lexemes lexemes' r next := by
  obtain ⟨next, stepped, place, file, scope, symbols, frames, latest⟩ :=
    step_spacing r' spacing (abreast.finished' lexeme (by simp))
  refine ⟨next, stepped, ?_, abreast.inScope, abreast.proper, abreast.finished,
    fun other member => abreast.finished' other (by simp [member]), ?_⟩
  · obtain ⟨sameFile, sameScope, table, tokens, nested⟩ := abreast.like
    exact ⟨by rw [file, sameFile], by rw [scope, sameScope], by rw [symbols]; exact table,
      by rw [Twins, latest]; exact tokens, by rw [frames]; exact nested⟩
  · rw [abreast.labels, braces_spacing spacing, place, file]

theorem inScope_like (like : Like σ r r') (inScope : InScope r.scope) : InScope r'.scope := by
  intro parent' there
  have same := like.scope
  rw [there] at same
  obtain ⟨parent, here, name⟩ := Option.map_eq_some_iff.mp same.symm
  exact (show parent.1 = parent'.1 from name) ▸ inScope parent here

theorem abreast_step (renames : Renaming σ) (abreast : Abreast σ (lexeme :: lexemes) (lexeme :: lexemes') r r')
    (solid : lexeme.isSpacing = false) : Alike (Abreast σ lexemes lexemes') (r.step lexeme) (r'.step lexeme) := by
  have proper := abreast.proper lexeme (by simp)
  have labels := abreast.labels
  have alike := take_like renames abreast.like abreast.inScope proper solid (by
    rintro rfl
    simp only [braces, if_true, List.singleton_append, List.map_cons] at labels
    exact (List.cons.inj labels).1.symm)
  have taken := take_taken abreast.inScope proper
  have taken' := take_taken (inScope_like abreast.like abreast.inScope) proper
  unfold step
  rcases alike.cases with ⟨next, next', ran, ran', like⟩ | ⟨stop, stop', ran, ran', kinds⟩
  · rw [ran, ran']
    obtain ⟨place, file⟩ := (taken.ok ran).stays
    obtain ⟨place', file'⟩ := (taken'.ok ran').stays
    have inScope := (taken.ok ran).inScope abreast.inScope
    obtain ⟨line, column, moved⟩ := foldl_advance lexeme.text next
    obtain ⟨line', column', moved'⟩ := foldl_advance lexeme.text next'
    have arrived := place_foldl_advance lexeme.text next
    have arrived' := place_foldl_advance lexeme.text next'
    change Abreast σ lexemes lexemes' (lexeme.text.foldl advance next) (lexeme.text.foldl advance next')
    refine ⟨by rw [moved, moved']; exact like_moved like, by rw [moved]; exact inScope,
      fun other member => abreast.proper other (by simp [member]),
      fun other member => abreast.finished other (by simp [member]),
      fun other member => abreast.finished' other (by simp [member]), ?_⟩
    have files : (lexeme.text.foldl advance next).file = r.file ∧ (lexeme.text.foldl advance next').file = r'.file := by
      rw [moved, moved']
      exact ⟨file, file'⟩
    rw [arrived, arrived', place, place', files.1, files.2]
    simp only [braces, List.map_append] at labels
    split at labels
    · exact (List.cons.inj labels).2
    · simpa using labels
  · rw [ran, ran']
    exact kinds

theorem run_like (renames : Renaming σ) (start : Abreast σ (Lexeme.all r.source) (Lexeme.all r'.source) r r')
    (same : (Lexeme.all r.source).filter (!·.isSpacing) = (Lexeme.all r'.source).filter (!·.isSpacing)) :
    Alike (fun next next' => SymbolTable.Like σ next.symbols next'.symbols ∧
      Twins σ next.tokens.toList next'.tokens.toList) r.run r'.run := by
  have agree : List.Forall₂ (fun x y : Lexeme => x = y ∧ x.isSpacing = false)
      ((Lexeme.all r.source).filter (!·.isSpacing)) ((Lexeme.all r'.source).filter (!·.isSpacing)) := by
    rw [← same, List.forall₂_same]
    intro lexeme member
    exact ⟨rfl, by simpa using (List.mem_filter.mp member).2⟩
  have alike := alike_each (Abreast σ)
    (fun lexeme rest rest' s s' spacing abreast => abreast_left abreast (by simpa using spacing))
    (fun lexeme rest rest' s s' spacing abreast => abreast_right abreast (by simpa using spacing))
    (fun lexeme lexeme' rest rest' s s' matched abreast => by
      obtain ⟨rfl, solid⟩ := matched
      exact abreast_step renames abreast solid)
    agree start
  refine alike.andThen ?_
  intro last last' abreast
  have frames := abreast.like.frames
  unfold finish
  cases here : last.frames with
  | nil =>
    rw [here] at frames
    have there := List.forall₂_nil_left_iff.mp frames
    rw [there]
    refine ⟨abreast.like.symbols, ?_⟩
    rw [tokens_toList, tokens_toList, here, there]
    exact abreast.like.latest
  | cons frame outer =>
    rw [here] at frames
    obtain ⟨frame', outer', _, _, there⟩ := List.forall₂_cons_left_iff.mp frames
    rw [there]
    exact alike_fail rfl

end Reader

namespace Expander

variable {source source' : List Char} {file : String} {settings : Settings} {e : Expander}

-- Both readings start with nothing, whatever was noted before them.
theorem read_alike (renames : Renaming σ) (journal journal' : Journal)
    (finished : ∀ lexeme ∈ Lexeme.all source, lexeme.Finished)
    (finished' : ∀ lexeme ∈ Lexeme.all source', lexeme.Finished)
    (same : (Lexeme.all source).filter (!·.isSpacing) = (Lexeme.all source').filter (!·.isSpacing))
    (labels : (Reader.braces file (1, 1) (Lexeme.all source)).map σ = Reader.braces file (1, 1) (Lexeme.all source')) :
    Alike (fun e e' => SymbolTable.Like σ e.symbols e'.symbols ∧ Reader.Twins σ e.program e'.program)
      (({ journal } : Expander).read settings source file)
      (({ journal := journal' } : Expander).read settings source' file) := by
  have start : Reader.Abreast σ (Lexeme.all source) (Lexeme.all source')
      (({ journal } : Expander).reader settings source file)
      (({ journal := journal' } : Expander).reader settings source' file) := by
    refine ⟨⟨rfl, rfl, .nil, .nil, .nil⟩, ?_, Lexeme.all_proper source, finished, finished', labels⟩
    intro parent entered
    cases entered
  have alike : Alike _ (({ journal } : Expander).reader settings source file).run
      (({ journal := journal' } : Expander).reader settings source' file).run :=
    Reader.run_like renames start same
  rw [read_eq, read_eq]
  rcases alike.cases with ⟨r, r', ran, ran', like⟩ | ⟨stop, stop', ran, ran', kinds⟩
  · rw [ran, ran']
    exact like
  · rw [ran, ran']
    exact kinds

end Expander

end RuneAsm
