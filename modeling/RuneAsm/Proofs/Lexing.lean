import Mathlib
import RuneAsm.Proofs.Respacing.Reading

namespace RuneAsm

open Run

-- What becomes of a lexeme, whatever was read before it. Its text, its place, the label in whose scope it stands and the
-- names that are known decide what is wrong with it, or else which labels it declares and what kind of token it is.
-- Then the labels are declared one by one and the token takes its place among the brackets.

-- A label that is to be declared. Some labels open the scope of a name first.
structure Declaration where
  enters : Option String := none
  name : String
  anonymous : Bool := false
deriving DecidableEq, Repr

structure Meaning where
  declares : List Declaration := []
  kind : TokenKind
deriving DecidableEq, Repr

-- The scope once the labels have been declared.
def Meaning.scope (m : Meaning) (parent : Option String) : Option String :=
  m.declares.foldl (fun inside d => d.enters.or inside) parent

namespace Lexeme

def qualified (parent : Option String) (child : List Char) : Option String :=
  parent.map fun parent => s!"{parent}/{String.ofList child}"

def numberMeaning (what : String) (digits : List Char) (make : Int → TokenKind) : Except Malformed Meaning :=
  match Reader.number? digits with
  | some n => .ok { kind := make n }
  | none => .error (.badNumber what (String.ofList digits))

def namedMeaning (first : Char) (name : List Char) (make : String → TokenKind) : Except Malformed Meaning :=
  if name.isEmpty then .error (.missingName first) else .ok { kind := make (String.ofList name) }

-- The part before the slash is declared first if it is new, and its scope is opened either way.
def parentMeaning (known : String → Bool) (name : List Char) : Except Malformed Meaning :=
  let label := String.ofList name
  let parent := name.takeWhile (· ≠ '/')
  let parentName := String.ofList parent
  if name.isEmpty then .error (.missingLabelName '@')
  else if name.contains '/' then
    if parent.isEmpty || ((name.dropWhile (· ≠ '/')).drop 1).isEmpty then .error (.halfScopedLabel label)
    else if known parentName then
      .ok { declares := [{ enters := some parentName, name := label }], kind := .parentLabel label none }
    else
      .ok { declares := [{ name := parentName }, { enters := some parentName, name := label }]
            kind := .parentLabel label (some parentName) }
  else .ok { declares := [{ enters := some label, name := label }], kind := .parentLabel label none }

def childMeaning (parent : Option String) (name : List Char) : Except Malformed Meaning :=
  if name.isEmpty then .error (.missingLabelName '&')
  else match qualified parent name with
    | none => .error (.childWithoutParent (String.ofList name))
    | some label => .ok { declares := [{ name := label }], kind := .childLabel label }

def referenceMeaning (parent : Option String) (form : ReferenceForm) (first : Char) :
    List Char → Except Malformed Meaning
  | [] => .error (.missingLabelName first)
  | ['\x7b'] => .ok { kind := .reference (form.to (.inline none)) }
  | c :: rest =>
    if c = '/' ∨ c = '&' then
      match qualified parent rest with
      | none => .error (.referenceWithoutParent (String.ofList (c :: rest)))
      | some label => .ok { kind := .reference (form.to (.named label)) }
    else .ok { kind := .reference (form.to (.named (String.ofList (c :: rest)))) }

def runeMeaning (parent : Option String) (known : String → Bool) (first : Char) (rest : List Char) :
    Rune → Except Malformed Meaning
  | .literalHex => numberMeaning "literal" rest (.literalHex · (Reader.widthOf rest))
  | .rawText => .ok { kind := .rawText (Text.Utf8.encode rest) }
  | .padAbsolute => numberMeaning "padding" rest .padAbsolute
  | .padRelative => numberMeaning "padding" rest .padRelative
  | .retarget => numberMeaning "padding" rest .retarget
  | .parentLabel => parentMeaning known rest
  | .childLabel => childMeaning parent rest
  | .reference form => referenceMeaning parent form first rest
  | .inclusion => namedMeaning first rest .inclusion
  | .macroDefinition => namedMeaning first rest (.macroDefinition · false)

def plainMeaning (parent : Option String) (first : Char) (rest : List Char) : Except Malformed Meaning :=
  match Opcode.ofMnemonic? (String.ofList (first :: rest)) with
  | some byte => .ok { kind := .opcode byte.toNat }
  | none =>
    match Reader.rawNumber? (first :: rest) with
    | some n => .ok { kind := .rawHex n (Reader.widthOf (first :: rest)) }
    | none => referenceMeaning parent .call first (first :: rest)

def wordMeaning (parent : Option String) (known : String → Bool) (first : Char) (rest : List Char) :
    Except Malformed Meaning :=
  if first = ')' then .error .strayParenthesis
  else match Rune.ofChar? first with
    | some rune => runeMeaning parent known first rest rune
    | none => plainMeaning parent first rest

def bracketMeaning (location : Location) (c : Char) : Meaning :=
  if c = '[' then { kind := .groupOpen }
  else if c = '\x7b' then { kind := .reference (ReferenceForm.subroutine.to (.inline none)) }
  else if c = ']' then { kind := .groupClose }
  else
    let label := Token.anonymousLabel location
    { declares := [{ name := label, anonymous := true }], kind := .subroutineClose label }

def meaning (location : Location) (parent : Option String) (known : String → Bool) : Lexeme → Except Malformed Meaning
  | .blank _ => .ok { kind := .blank }
  | .comment _ closed => if closed then .ok { kind := .comment } else .error .unterminatedComment
  | .bracket c => .ok (bracketMeaning location c)
  | .word first rest => wordMeaning parent known first rest

variable {parent : Option String} {known : String → Bool} {first : Char} {name rest : List Char} {m : Meaning}

theorem numberMeaning_ok {what : String} {digits : List Char} {make : Int → TokenKind}
    (meant : numberMeaning what digits make = .ok m) : ∃ n, Reader.number? digits = some n ∧ m = { kind := make n } := by
  unfold numberMeaning at meant
  cases read : Reader.number? digits with
  | none => simp [read] at meant
  | some n => exact ⟨n, rfl, by simpa [read] using meant.symm⟩

theorem namedMeaning_ok {make : String → TokenKind} (meant : namedMeaning first name make = .ok m) :
    m = { kind := make (String.ofList name) } := by
  unfold namedMeaning at meant
  split at meant
  · cases meant
  · exact (Except.ok.inj meant).symm

theorem childMeaning_ok (meant : childMeaning parent name = .ok m) : ∃ label, qualified parent name = some label ∧
    m = { declares := [{ name := label }], kind := .childLabel label } := by
  unfold childMeaning at meant
  split at meant
  · cases meant
  · cases found : qualified parent name with
    | none => simp [found] at meant
    | some label => exact ⟨label, rfl, by simpa [found] using meant.symm⟩

theorem takeWhile_ne_of_not_contains (whole : ¬ name.contains '/' = true) : name.takeWhile (· ≠ '/') = name := by
  apply List.takeWhile_eq_self_iff.mpr
  intro c member
  simp only [decide_eq_true_eq]
  rintro rfl
  exact whole (by simpa using member)

-- The scope that is opened is that of the part before the slash, if there is one.
theorem parentMeaning_ok (meant : parentMeaning known name = .ok m) : ∃ implied, (implied ≠ none → '/' ∈ name) ∧
    m.kind = .parentLabel (String.ofList name) implied ∧
    ∀ parent, m.scope parent = some (String.ofList (name.takeWhile (· ≠ '/'))) := by
  unfold parentMeaning at meant
  dsimp only at meant
  split at meant
  · cases meant
  · split at meant
    · rename_i slash
      split at meant
      · cases meant
      · split at meant <;> cases meant
        · exact ⟨none, by simp, rfl, fun _ => rfl⟩
        · exact ⟨_, fun _ => by simpa using slash, rfl, fun _ => rfl⟩
    · rename_i whole
      cases meant
      exact ⟨none, by simp, rfl, fun _ => by rw [takeWhile_ne_of_not_contains whole]; rfl⟩

theorem referenceMeaning_ok {form : ReferenceForm} (meant : referenceMeaning parent form first name = .ok m) :
    ∃ target, m = { kind := .reference (form.to target) } := by
  unfold referenceMeaning at meant
  split at meant
  · cases meant
  · exact ⟨_, (Except.ok.inj meant).symm⟩
  · split at meant
    · split at meant
      · cases meant
      · exact ⟨_, (Except.ok.inj meant).symm⟩
    · exact ⟨_, (Except.ok.inj meant).symm⟩

theorem plainMeaning_ok (meant : plainMeaning parent first rest = .ok m) :
    (∃ byte : UInt8, m = { kind := .opcode byte.toNat }) ∨ (∃ n width, m = { kind := .rawHex n width }) ∨
      referenceMeaning parent .call first (first :: rest) = .ok m := by
  unfold plainMeaning at meant
  split at meant
  · exact .inl ⟨_, (Except.ok.inj meant).symm⟩
  · split at meant
    · exact .inr (.inl ⟨_, _, (Except.ok.inj meant).symm⟩)
    · exact .inr (.inr meant)

theorem wordMeaning_ok (meant : wordMeaning parent known first rest = .ok m) :
    (∃ rune, Rune.ofChar? first = some rune ∧ runeMeaning parent known first rest rune = .ok m) ∨
      Rune.ofChar? first = none ∧ plainMeaning parent first rest = .ok m := by
  unfold wordMeaning at meant
  split at meant
  · cases meant
  · cases found : Rune.ofChar? first with
    | some rune => exact .inl ⟨rune, rfl, by simpa [found] using meant⟩
    | none => exact .inr ⟨rfl, by simpa [found] using meant⟩

end Lexeme

namespace Reader

variable {r mid next : Reader} {text : List Char} {lexeme : Lexeme} {m : Meaning}

def parent (r : Reader) : Option String := r.scope.parent.map (·.1)

theorem qualify_eq (r : Reader) (child : List Char) :
    r.scope.qualify (String.ofList child) = Lexeme.qualified r.parent child := by
  unfold Scope.qualify Lexeme.qualified parent
  cases r.scope.parent <;> rfl

def declare (r : Reader) (d : Declaration) : Run Reader := (d.enters.elim r r.enter).define d.name d.anonymous

def attach (r : Reader) (text : List Char) (kind : TokenKind) : Run Reader :=
  if kind.closer?.isSome then r.openBracket text kind else r.push text kind

-- A bracket that closes nothing is refused before its label is declared.
def accept (r : Reader) (text : List Char) (m : Meaning) : Run Reader :=
  match m.kind.closes? with
  | none => (Run.each declare r m.declares).andThen fun r => r.attach text m.kind
  | some c =>
    match r.frames with
    | [] => r.fail (.unmatchedBracket (String.singleton c) none)
    | frame :: outer =>
      if frame.opener.kind.closer? ≠ some c then
        r.fail (.unmatchedBracket (String.singleton c) (some frame.opener.location))
      else (Run.each declare r m.declares).andThen fun r => .ok (r.pair frame outer text m.kind)

-- Remarks on a comment are made before anything else.
def remark (r : Reader) : Lexeme → Reader
  | .comment text closed => if r.checkComments then r.note (commentStyles text closed) else r
  | _ => r

def perform (r : Reader) (text : List Char) : Except Malformed Meaning → Run Reader
  | .ok m => r.accept text m
  | .error fault => r.malformed fault

theorem each_declare_one (r : Reader) (d : Declaration) : Run.each declare r [d] = r.declare d := by
  rw [each_cons]
  cases r.declare d <;> rfl

theorem push_eq_accept {kind : TokenKind} (opensNone : kind.closer? = none) (closesNone : kind.closes? = none) :
    r.push text kind = r.accept text { kind } := by
  simp [accept, attach, opensNone, closesNone]

theorem openBracket_eq_accept {kind : TokenKind} {c : Char} (opens : kind.closer? = some c)
    (closesNone : kind.closes? = none) : r.openBracket text kind = r.accept text { kind } := by
  simp [accept, attach, opens, closesNone]

theorem accept_label {declares : List Declaration} {kind : TokenKind} (opensNone : kind.closer? = none)
    (closesNone : kind.closes? = none) :
    r.accept text ⟨declares, kind⟩ = (Run.each declare r declares).andThen fun r => r.push text kind := by
  simp [accept, attach, opensNone, closesNone]

theorem accept_closing {c : Char} {frame : Frame} {outer : List Frame} (closes : m.kind.closes? = some c)
    (frames : r.frames = frame :: outer) (opens : frame.opener.kind.closer? = some c) :
    r.accept text m = (Run.each declare r m.declares).andThen fun r => .ok (r.pair frame outer text m.kind) := by
  simp [accept, closes, frames, opens]

theorem accept_unmatched {c : Char} (closes : m.kind.closes? = some c)
    (apart : (r.frames.head?.bind (·.opener.kind.closer?)) ≠ some c) :
    ∃ opened, r.accept text m = r.fail (.unmatchedBracket (String.singleton c) opened) := by
  cases frames : r.frames with
  | nil => exact ⟨none, by simp [accept, closes, frames]⟩
  | cons frame outer =>
    have other : frame.opener.kind.closer? ≠ some c := by simpa [frames] using apart
    exact ⟨some frame.opener.location, by simp [accept, closes, frames, other]⟩

theorem padding_eq {digits : List Char} {make : Int → TokenKind} (opensNone : ∀ n, (make n).closer? = none)
    (closesNone : ∀ n, (make n).closes? = none) :
    r.padding text digits make = r.perform text (Lexeme.numberMeaning "padding" digits make) := by
  unfold padding Lexeme.numberMeaning
  cases number? digits with
  | none => rfl
  | some n => exact push_eq_accept (opensNone n) (closesNone n)

theorem literal_eq {digits : List Char} : r.literal text digits =
    r.perform text (Lexeme.numberMeaning "literal" digits (.literalHex · (widthOf digits))) := by
  unfold literal Lexeme.numberMeaning
  cases number? digits with
  | none => rfl
  | some n => exact push_eq_accept rfl rfl

theorem named_eq {first : Char} {name : List Char} (make : String → TokenKind)
    (opensNone : ∀ x, (make x).closer? = none) (closesNone : ∀ x, (make x).closes? = none) :
    r.named first text name make = r.perform text (Lexeme.namedMeaning first name make) := by
  unfold named Lexeme.namedMeaning
  split
  · rfl
  · exact push_eq_accept (opensNone _) (closesNone _)

theorem parentLabel_eq {name : List Char} :
    r.parentLabel text name = r.perform text (Lexeme.parentMeaning r.symbols.contains name) := by
  unfold parentLabel Lexeme.parentMeaning
  dsimp only
  split
  · rfl
  · split
    · split
      · rfl
      · split
        · rw [perform, accept_label rfl rfl, each_declare_one]
          rfl
        · rw [perform, accept_label rfl rfl, each_cons]
          simp only [each_declare_one]
          generalize first : r.declare { name := String.ofList (name.takeWhile (· ≠ '/')) } = declared
          have same : r.define (String.ofList (name.takeWhile (· ≠ '/'))) false = declared := first
          rw [same]
          cases declared <;> rfl
    · rw [perform, accept_label rfl rfl, each_declare_one]
      rfl

theorem childLabel_eq {name : List Char} :
    r.childLabel text name = r.perform text (Lexeme.childMeaning r.parent name) := by
  unfold childLabel Lexeme.childMeaning
  dsimp only
  rw [qualify_eq]
  split
  · rfl
  · cases Lexeme.qualified r.parent name with
    | none => rfl
    | some label =>
      simp only [perform]
      rw [accept_label rfl rfl, each_declare_one]
      rfl

theorem reference_eq {form : ReferenceForm} {first : Char} {target : List Char} :
    r.reference form first text target = r.perform text (Lexeme.referenceMeaning r.parent form first target) := by
  unfold reference
  split
  · rfl
  · exact openBracket_eq_accept rfl rfl
  · rename_i c rest noBrace
    rw [Lexeme.referenceMeaning.eq_3 _ _ _ _ _ noBrace, qualify_eq]
    split
    · cases Lexeme.qualified r.parent rest with
      | none => rfl
      | some label => exact push_eq_accept rfl rfl
    · exact push_eq_accept rfl rfl

theorem word_eq {first : Char} {rest : List Char} : r.word first rest =
    r.perform (first :: rest) (Lexeme.wordMeaning r.parent r.symbols.contains first rest) := by
  unfold word Lexeme.wordMeaning
  split
  · rfl
  · cases Rune.ofChar? first with
    | none =>
      simp only [plainWord, Lexeme.plainMeaning]
      cases Opcode.ofMnemonic? (String.ofList (first :: rest)) with
      | some byte => exact push_eq_accept rfl rfl
      | none =>
        cases rawNumber? (first :: rest) with
        | some n => exact push_eq_accept rfl rfl
        | none => exact reference_eq
    | some rune =>
      cases rune with
      | literalHex => exact literal_eq
      | rawText => exact push_eq_accept rfl rfl
      | padAbsolute | padRelative | retarget => exact padding_eq (fun _ => rfl) fun _ => rfl
      | parentLabel => exact parentLabel_eq
      | childLabel => exact childLabel_eq
      | reference form => exact reference_eq
      | inclusion => exact named_eq .inclusion (fun _ => rfl) fun _ => rfl
      | macroDefinition => exact named_eq (.macroDefinition · false) (fun _ => rfl) fun _ => rfl

theorem bracket_eq {c : Char} (isBracket : isBracket c = true) :
    r.bracket c = r.accept [c] (Lexeme.bracketMeaning r.location c) := by
  unfold bracket Lexeme.bracketMeaning
  split
  · exact openBracket_eq_accept rfl rfl
  · split
    · exact openBracket_eq_accept rfl rfl
    · rename_i noSquare noCurly
      have closing : c = ']' ∨ c = '\x7d' := by simpa [RuneAsm.isBracket, noSquare, noCurly] using isBracket
      rcases closing with rfl | rfl
      · unfold closeBracket accept
        rfl
      · rw [if_neg (by decide)]
        simp only [closeBracket, accept, TokenKind.closes?, each_declare_one]
        rfl

-- The one way in which a lexeme is read.
theorem take_eq (r : Reader) (proper : lexeme.Proper) : r.take lexeme =
    (r.remark lexeme).perform lexeme.text (lexeme.meaning r.location r.parent r.symbols.contains) := by
  cases lexeme with
  | blank text => exact push_eq_accept rfl rfl
  | comment text closed =>
    cases closed with
    | true => exact push_eq_accept rfl rfl
    | false => rfl
  | bracket c => exact bracket_eq proper
  | word first rest => exact word_eq

-- A step is one lexeme taken, and then only the place moves on.
theorem step_eq_ok (ran : r.step lexeme = .ok next) : ∃ mid line column, r.take lexeme = .ok mid ∧
    next = { mid with line, column } ∧ next.place = lexeme.text.foldl passed mid.place := by
  unfold step at ran
  cases taken : r.take lexeme with
  | error stop =>
    rw [taken] at ran
    cases ran
  | ok mid =>
    rw [taken] at ran
    cases ran
    obtain ⟨line, column, moved⟩ := foldl_advance lexeme.text mid
    exact ⟨mid, line, column, rfl, moved, place_foldl_advance lexeme.text mid⟩

-- Declarations change scope, table and journal, and fail only where a name is taken.
theorem declares_frame (r : Reader) (ds : List Declaration) :
    Ends (fun next => ∃ scope symbols journal, next = { r with scope, symbols, journal })
      (fun f => ∃ name first location line, f = .report ⟨.duplicateLabel name first, location, line⟩)
      (Run.each declare r ds) := by
  induction ds generalizing r with
  | nil => exact ⟨r.scope, r.symbols, r.journal, rfl⟩
  | cons d ds ih =>
    have first : Ends (fun next => ∃ scope symbols journal, next = { r with scope, symbols, journal })
        (fun f => ∃ name first location line, f = .report ⟨.duplicateLabel name first, location, line⟩)
        (r.declare d) := by
      have entered : ∃ scope, d.enters.elim r r.enter = { r with scope } := by
        cases d.enters with
        | none => exact ⟨r.scope, rfl⟩
        | some name => exact ⟨.enter name r.location, rfl⟩
      obtain ⟨scope, entered⟩ := entered
      unfold declare define
      rw [entered]
      split
      · exact ⟨_, _, _, rfl⟩
      · exact ⟨_, _, _, _, rfl⟩
    rw [each_cons]
    apply first.andThen
    rintro next ⟨scope, symbols, journal, rfl⟩
    refine (ih _).mono ?_ fun _ failed => failed
    rintro last ⟨scope, symbols, journal, rfl⟩
    exact ⟨scope, symbols, journal, rfl⟩

theorem remark_frame (r : Reader) (lexeme : Lexeme) : ∃ journal, r.remark lexeme = { r with journal } := by
  unfold remark
  split
  · split
    · exact ⟨_, rfl⟩
    · exact ⟨r.journal, rfl⟩
  · exact ⟨r.journal, rfl⟩

end Reader

end RuneAsm
