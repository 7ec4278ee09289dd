import Mathlib
import RuneAsm.Proofs.Following
import RuneAsm.Proofs.Respacing.Shapes
import RuneAsm.Proofs.Splicing.Gathering

namespace RuneAsm

open Run

-- An expansion gives what its text gathers, unfolded. Whatever was already replaced when an included file was done is
-- replaced by what the finished table would put there, so the order of the files and of the passes does not show in the
-- end.

namespace TokenKind

variable (kind : TokenKind)

theorem bare_isIdle : kind.bare.isIdle = kind.isIdle :=
  kind.bare_congr isIdle (fun _ _ _ => rfl) (fun _ _ => rfl) (fun _ _ _ _ _ => rfl)

theorem bare_called? : kind.bare.called? = kind.called? :=
  kind.bare_congr called? (fun _ _ _ => rfl) (fun _ _ => rfl) (fun _ _ _ _ _ => rfl)

theorem bare_mapInline (f : String → String) : (kind.mapInline f).bare = kind.bare := by
  cases kind with
  | reference r => cases target : r.target <;> simp [bare, mapInline, target]
  | _ => rfl

theorem isIdle_of_isSpacing {kind : TokenKind} (spacing : kind.isSpacing = true) : kind.isIdle = true := by
  cases kind <;> first | rfl | cases spacing

theorem isIdle_of_isTransparent {kind : TokenKind} (transparent : kind.isTransparent = true) : kind.isIdle = true := by
  cases kind <;> first | rfl | cases transparent

theorem isIdle_of_called? {kind : TokenKind} {name : String} (called : kind.called? = some name) : kind.isIdle = false := by
  cases kind <;> first | rfl | cases called

end TokenKind

-- What counts of tokens in the end.
def content (tokens : List Token) : List TokenKind := (tokens.filter (!·.kind.isIdle)).map (·.kind.bare)

@[simp] theorem content_append (early late : List Token) : content (early ++ late) = content early ++ content late := by
  simp [content]

theorem content_idle {tokens : List Token} (idle : ∀ t ∈ tokens, t.kind.isIdle = true) : content tokens = [] := by
  simpa [content] using idle

theorem content_solid {t : Token} (counts : t.kind.isIdle = false) : content [t] = [t.kind.bare] := by
  simp [content, counts]

theorem content_filter (tokens : List Token) : content (tokens.filter (!·.isTransparent)) = content tokens := by
  unfold content
  rw [List.filter_filter]
  congr 1
  apply List.filter_congr
  intro t _
  cases transparent : t.isTransparent with
  | true => simp [TokenKind.isIdle_of_isTransparent transparent]
  | false => simp

theorem gist_filter (tokens : List Token) : (gist tokens).filter (!·.isIdle) = content tokens := by
  unfold gist content unspaced
  rw [List.filter_map, List.filter_filter]
  congr 1
  apply List.filter_congr
  intro t _
  cases spacing : t.kind.isSpacing with
  | true => simp [TokenKind.isIdle_of_isSpacing spacing]
  | false => simp [TokenKind.bare_isIdle]

theorem gist_cons (t : Token) (rest : List Token) : gist (t :: rest) = gist [t] ++ gist rest := gist_append [t] rest

-- Nested brackets are those that a count of them pairs.
theorem enclosed_nesting {stack tokens after : List Token} (nesting : Nesting stack tokens after) (more : List TokenKind) :
    enclosed stack.length (gist tokens ++ more) =
      (enclosed after.length more).map fun found => (gist tokens ++ found.1, found.2) := by
  induction nesting with
  | done stack => simp [gist, unspaced]
  | @plain stack rest after t opensNone closesNone _ _ ih =>
    rw [gist_cons, List.append_assoc]
    cases spacing : t.kind.isSpacing with
    | true => rw [gist_spacing spacing, List.nil_append, List.nil_append, ih]
    | false =>
      have moved : depthAfter stack.length t.kind.bare = some stack.length := by
        simp [depthAfter, t.kind.bare_closes?, t.kind.bare_closer?, opensNone, closesNone]
      rw [gist_solid spacing, List.singleton_append, enclosed, moved]
      simp only [ih, Option.map_map]
      rfl
  | @opening stack rest after t c opens _ ih =>
    have closesNone : t.kind.closes? = none := by
      cases closes : t.kind.closes? with
      | none => rfl
      | some d =>
        rw [closer?_of_closes? closes] at opens
        cases opens
    have moved : depthAfter stack.length t.kind.bare = some (t :: stack).length := by
      simp [depthAfter, t.kind.bare_closes?, t.kind.bare_closer?, opens, closesNone]
    rw [gist_cons, List.append_assoc, gist_solid (solid_of_closer? opens), List.singleton_append, enclosed, moved]
    simp only [ih, Option.map_map]
    rfl
  | @closing stack rest after opener t pairs _ ih =>
    obtain ⟨c, _, closes⟩ := pairs.bracket
    have moved : depthAfter (opener :: stack).length t.kind.bare = some stack.length := by
      simp [depthAfter, t.kind.bare_closes?, closes]
    rw [gist_cons, List.append_assoc, gist_solid (solid_of_closes? closes), List.singleton_append, enclosed, moved]
    simp only [ih, Option.map_map]
    rfl

theorem gist_gap {gap : List Token} (skipped : ∀ t ∈ gap, Expander.isGap t = true) : ∀ kind ∈ gist gap, kind = .groupClose := by
  intro bare member
  obtain ⟨t, there, rfl⟩ := List.mem_map.mp member
  have gap := skipped t (List.mem_of_mem_filter there)
  have solid : t.kind.isSpacing = false := by simpa using (List.mem_filter.mp there).2
  cases kind : t.kind <;> simp_all [Expander.isGap, Token.isTransparent, TokenKind.isTransparent, TokenKind.isSpacing, TokenKind.bare]

theorem Expander.BodySpan.Fits.body? {span : Expander.BodySpan} {tokens : List Token} (fits : span.Fits tokens) :
    RuneAsm.body? (gist tokens) = some (gist span.inside, gist span.rest) := by
  obtain ⟨c, opens, closes⟩ := fits.pairs.bracket
  have noGap : span.opener.kind.bare ≠ .groupClose := by
    intro same
    have body := span.opener.kind.bare_opensBody.trans fits.opens
    rw [same] at body
    cases body
  have within := enclosed_nesting fits.inside (gist (span.closer :: span.rest))
  have closed : enclosed 0 (gist (span.closer :: span.rest)) = some ([], gist span.rest) := by
    rw [gist_cons, gist_solid (solid_of_closes? closes), List.singleton_append, enclosed_cons]
    exact .inl ⟨by simp [depthAfter, span.closer.kind.bare_closes?, closes], rfl, rfl⟩
  apply body?_eq_some.mpr
  refine ⟨span.opener.kind.bare, gist (span.inside ++ span.closer :: span.rest), ?_,
    span.opener.kind.bare_opensBody.trans fits.opens, ?_⟩
  · have skipped : ∀ kind ∈ gist span.gap, decide (kind = .groupClose) = true := by
      intro kind member
      exact decide_eq_true (gist_gap fits.gap kind member)
    rw [fits.parts, gist_append, gist_cons span.opener, gist_solid (solid_of_closer? opens),
      List.dropWhile_append_of_pos skipped, List.singleton_append, List.dropWhile_cons_of_neg (by simpa using noGap)]
  · rw [gist_append]
    simp only [List.length_nil, closed, Option.map_some, List.append_nil] at within
    exact within

-- The names and bodies of a table, as far as they count.
def MacroTable.contents (macros : MacroTable) : Definitions := macros.entries.map fun m => (m.name, content m.body)

def MacroTable.bodyFaces (macros : MacroTable) : Bodies := macros.entries.map fun m => (m.name, faces m.body)

theorem MacroTable.lookup_entries {A : Type} (macros : MacroTable) (f : Macro → A) (name : String) :
    (macros.entries.map fun m => (m.name, f m)).lookup name = (macros.find? name).map f := by
  unfold MacroTable.find?
  induction macros.entries with
  | nil => rfl
  | cons m rest ih =>
    by_cases here : m.name = name
    · simp [here]
    · have differs : name ≠ m.name := fun same => here same.symm
      simp [here, List.lookup_cons, beq_false_of_ne differs, ih]

-- The names of a table stand for its bodies; there may be more.
def Knows (named : String → Option (List TokenKind)) (macros : MacroTable) : Prop :=
  ∀ name m, macros.find? name = some m → named name = some (content m.body)

variable {named : String → Option (List TokenKind)} {macros later : MacroTable}

theorem knows_contents (macros : MacroTable) : Knows (macros.contents.lookup ·) macros := by
  intro name m found
  have entry := macros.lookup_entries (fun m => content m.body) name
  rw [found] at entry
  exact entry

theorem Knows.earlier (knows : Knows named later) (grown : ∃ added, later.entries = macros.entries ++ added) :
    Knows named macros := by
  intro name m found
  obtain ⟨added, entries⟩ := grown
  apply knows name m
  unfold MacroTable.find? at found ⊢
  rw [entries, List.find?_append, found]
  rfl

def faceContent (faces : List Face) : List TokenKind := (faces.filter (!·.kind.isIdle)).map (·.kind.bare)

theorem faceContent_faces (tokens : List Token) : faceContent (faces tokens) = content tokens := by
  rw [← content_filter]
  unfold faceContent faces content
  rw [List.filter_map, List.map_map]
  have idle : ((!·.kind.isIdle) ∘ Token.face) = (!·.kind.isIdle) := by
    funext t
    cases kind : t.kind <;> simp [Token.face, TokenKind.uncaptured, TokenKind.isIdle, kind]
  rw [idle]
  apply List.map_congr_left
  intro t member
  have counts : t.kind.isIdle = false := by simpa using (List.mem_filter.mp member).2
  cases kind : t.kind with
  | macroDefinition name captured =>
    rw [kind] at counts
    cases counts
  | _ => simp [Token.face, TokenKind.uncaptured, kind]

theorem faceContent_relabel (f : String → String) (xs : List Face) :
    faceContent (xs.map (Face.relabel f)) = faceContent xs := by
  unfold faceContent
  have idle : ((!·.kind.isIdle) ∘ Face.relabel f) = (!·.kind.isIdle) := by
    funext face
    simp only [Function.comp_apply, Face.relabel]
    rw [← TokenKind.bare_isIdle, TokenKind.bare_mapInline, TokenKind.bare_isIdle]
  rw [List.filter_map, idle, List.map_map]
  apply List.map_congr_left
  intro face _
  exact face.kind.bare_mapInline f

-- What was replaced by the bodies known at one time can be replaced by those of a larger table as well.
theorem Substitutes.unfolds {bodies : Bodies} {xs out : List Face} {result : List TokenKind}
    (known : ∀ name body, bodies.lookup name = some body → named name = some (faceContent body))
    (substitutes : Substitutes bodies xs out) (unfolds : Unfolds named (faceContent out) result) :
    Unfolds named (faceContent xs) result := by
  have split (face : Face) (rest : List Face) : faceContent (face :: rest) = faceContent [face] ++ faceContent rest := by
    simp only [faceContent, ← List.map_append, ← List.filter_append, List.singleton_append]
  induction substitutes generalizing result with
  | done => exact unfolds
  | @kept face rest out _ _ ih =>
    rw [split] at unfolds ⊢
    obtain ⟨front, back, rfl, first, second⟩ := unfolds.split
    exact first.append (ih second)
  | @replaced face body copy rest out f stands _ _ _ innerIh laterIh =>
    obtain ⟨name, called, found⟩ := Option.bind_eq_some_iff.mp stands
    have whole : faceContent (copy ++ out) = faceContent copy ++ faceContent out := by simp [faceContent]
    have single : faceContent [face] = [face.kind.bare] := by
      simp [faceContent, TokenKind.isIdle_of_called? called]
    rw [whole] at unfolds
    obtain ⟨front, back, rfl, first, second⟩ := unfolds.split
    have inner := innerIh first
    rw [faceContent_relabel] at inner
    rw [split, single]
    refine .replaced ?_ inner (laterIh second)
    rw [TokenKind.bare_called?, called]
    exact known name body found

namespace Expander

variable {ctx : Context} {down : Option (Expander → Run Expander)} {e : Expander} {p q : Pass} {t : Token}
variable {tokens rest foreign output : List Token} {file name : String} {kinds : List TokenKind}

-- What was said has become these tokens, and the table has gained the bodies that were among it. The words that stay
-- unfold to whatever the tokens unfold to.
def Yields (ctx : Context) (file : String) (kinds : List TokenKind) (macros : MacroTable) (output : List Token)
    (later : MacroTable) : Prop :=
  ∃ words bodies, Gathers ctx file kinds words bodies ∧ later.contents = macros.contents ++ bodies ∧
    ∀ named out, Knows named later → Unfolds named (content output) out → Unfolds named words out

-- The output has grown by tokens with which the first half of a pass is done.
def Rewritten (ctx : Context) (file : String) (tokens : List Token) (p q : Pass) : Prop :=
  ∃ new, q.output.toList = p.output.toList ++ new ∧ (∀ u ∈ new, Quiet u) ∧
    Yields ctx file (gist tokens) p.expander.macros new q.expander.macros

theorem Rewritten.keep (after : Rewritten ctx file rest (p.keep t) q) (quiet : Quiet t) :
    Rewritten ctx file (t :: rest) p q := by
  obtain ⟨new, written, quietNew, words, bodies, gathers, macros, unfolds⟩ := after
  refine ⟨t :: new, by simp [written, Pass.keep], ?_, ?_⟩
  · intro u member
    rcases List.mem_cons.mp member with rfl | later
    · exact quiet
    · exact quietNew u later
  · have output : content (t :: new) = content [t] ++ content new := content_append [t] new
    cases idle : t.kind.isIdle with
    | true =>
      have nothing : content [t] = [] := content_idle (by simpa using idle)
      rw [nothing, List.nil_append] at output
      refine ⟨words, bodies, ?_, macros, fun named out knows => output ▸ unfolds named out knows⟩
      rw [gist_cons]
      cases spacing : t.kind.isSpacing with
      | true => exact (gist_spacing spacing).symm ▸ gathers
      | false =>
        rw [gist_solid spacing]
        refine .passed (t.kind.bare_isIdle.trans idle) ?_ gathers
        intro name same
        exact quiet.2 name (t.kind.bare_macroDefinition.mp same)
    | false =>
      rw [content_solid idle] at output
      have spacing : t.kind.isSpacing = false := by
        cases kind : t.kind <;> rw [kind] at idle <;> first | rfl | cases idle
      refine ⟨t.kind.bare :: words, bodies, ?_, macros, ?_⟩
      · rw [gist_cons, gist_solid spacing]
        refine .kept (t.kind.bare_isIdle.trans idle) ?_ gathers
        intro name same
        exact quiet.1 name (t.kind.bare_inclusion.mp same)
      · intro named out knows whole
        rw [output] at whole
        obtain ⟨front, back, rfl, first, second⟩ := whole.split
        exact first.append (unfolds named back knows second)

theorem contents_enter (macros : MacroTable) (m : Macro) :
    (macros.enter m).contents = macros.contents ++ [(m.name, content m.body)] := by
  simp [MacroTable.contents, MacroTable.enter]

theorem Rewritten.capture {span : BodySpan}
    (later : Rewritten ctx file span.rest (p.replaceBy (captured p.expander t name span)
      ({ t with kind := .macroDefinition name true } :: span.gap)) q)
    (kind : t.kind = .macroDefinition name false) (fits : span.Fits rest)
    (noInclusion : ∀ u ∈ span.inside, ∀ name, u.kind ≠ .inclusion name) : Rewritten ctx file (t :: rest) p q := by
  obtain ⟨new, written, quietNew, words, bodies, gathers, macros, unfolds⟩ := later
  have transparent : ∀ u ∈ span.gap, u.isTransparent = true := by
    intro u member
    have both := fits.gap u member
    rw [isGap, Bool.and_eq_true] at both
    exact both.1
  refine ⟨{ t with kind := .macroDefinition name true } :: span.gap ++ new, by simp [written, Pass.replaceBy], ?_,
    words, (name, (gist span.inside).filter (!·.isIdle)) :: bodies, ?_, ?_, ?_⟩
  · intro u member
    rcases List.mem_append.mp member with early | late
    · rcases List.mem_cons.mp early with rfl | inGap
      · exact ⟨by simp, by simp⟩
      · have blank := transparent u inGap
        refine ⟨?_, ?_⟩ <;> intro other is <;> rw [Token.isTransparent, is] at blank <;> cases blank
    · exact quietNew u late
  · rw [gist_cons, gist_solid (by rw [kind]; rfl), kind]
    refine .defined fits.body? ?_ gathers
    intro bare member name same
    obtain ⟨u, there, rfl⟩ := List.mem_map.mp member
    exact noInclusion u (List.mem_of_mem_filter there) name (u.kind.bare_inclusion.mp same)
  · have body : content (span.macroOf t name).body = content span.inside := content_filter span.inside
    have grown := contents_enter p.expander.macros (span.macroOf t name)
    rw [body] at grown
    rw [gist_filter, macros, List.append_cons]
    exact congrArg (· ++ bodies) grown
  · have idle : content ({ t with kind := .macroDefinition name true } :: span.gap) = [] := by
      apply content_idle
      intro u member
      rcases List.mem_cons.mp member with rfl | inGap
      · rfl
      · exact TokenKind.isIdle_of_isTransparent (transparent u inGap)
    intro named out knows
    rw [content_append, idle]
    exact unfolds named out knows

-- What is asked of the expansion of an included file.
def Faithful (ctx : Context) (enter : Expander → Run Expander) : Prop :=
  ∀ foreign file e after, e.Holds (foreign ++ e.program) → Orderly e.program → (∀ t ∈ e.program, t.location.file = file) →
    enter e = .ok after → (∀ t ∈ after.macros.bodies, Quiet t) →
      Yields ctx file (gist e.program) e.macros after.program after.macros

structure Trusted (ctx : Context) (enter : Expander → Run Expander) : Prop where
  keeps : Keeps enter
  covers : Covers Grows enter
  faithful : Faithful ctx enter

theorem bodies_of_grown {macros later : MacroTable} (grown : ∃ added, later.entries = macros.entries ++ added)
    (quiet : ∀ u ∈ later.bodies, Quiet u) : ∀ u ∈ macros.bodies, Quiet u := by
  obtain ⟨added, entries⟩ := grown
  intro u member
  apply quiet u
  rw [MacroTable.bodies, entries, List.flatMap_append]
  exact List.mem_append_left _ member

theorem Rewritten.splice {middle : Pass} (trusted : ∀ enter, down = some enter → Trusted ctx enter)
    (sound : Sound foreign (t :: rest) p) (kind : t.kind = .inclusion name) (place : t.location.file = file)
    (ran : Expander.splice ctx down t name p = .ok middle)
    (grown : ∃ added, q.expander.macros.entries = middle.expander.macros.entries ++ added)
    (quiet : ∀ u ∈ q.expander.macros.bodies, Quiet u) (later : Rewritten ctx file rest middle q) :
    Rewritten ctx file (t :: rest) p q := by
  obtain ⟨path, enter, source, lexed, inner, found, below, stored, read, entered, rfl⟩ := splice_ok ran
  obtain ⟨keeps, _, faithful⟩ := trusted enter below
  rw [place] at found
  generalize opened : (p.expander.note (.including path.text t.location)).nested (ctx.disk.resolve path) = start at read
  have holds : start.Holds (foreign ++ (p.output.toList ++ t :: rest)) := by
    subst opened
    exact sound.holds.aside rfl rfl rfl
  obtain ⟨lexedHolds, lexedOrderly, lexedMacros⟩ := (read_keeps ctx.settings source path.text holds).ok read
  have same : lexed.macros = p.expander.macros := by
    rw [lexedMacros, ← opened]
    rfl
  obtain ⟨said, files⟩ := read_gist read
  obtain ⟨_, _, settled⟩ := (keeps _ lexed lexedHolds lexedOrderly).ok entered
  have quietInner := bodies_of_grown grown quiet
  obtain ⟨innerWords, innerBodies, innerGathers, innerMacros, innerUnfolds⟩ :=
    faithful _ path.text lexed inner lexedHolds lexedOrderly files entered quietInner
  obtain ⟨new, written, quietNew, words, bodies, gathers, macros, unfolds⟩ := later
  refine ⟨inner.program ++ new, by simp [written, Pass.replaceBy], ?_, innerWords ++ words, innerBodies ++ bodies, ?_, ?_, ?_⟩
  · intro u member
    rcases List.mem_append.mp member with early | late
    · exact ⟨settled.spliced u early, settled.captured u early⟩
    · exact quietNew u late
  · rw [gist_cons, gist_solid (by rw [kind]; rfl), kind]
    exact .included found stored said innerGathers gathers
  · have after : inner.macros.contents = p.expander.macros.contents ++ innerBodies := by rw [innerMacros, same]
    rw [macros, ← List.append_assoc, ← after]
    rfl
  · intro named out knows whole
    rw [content_append] at whole
    obtain ⟨front, back, rfl, first, second⟩ := whole.split
    exact (innerUnfolds named front (knows.earlier grown) first).append (unfolds named back knows second)

theorem rewrite_yields (trusted : ∀ enter, down = some enter → Trusted ctx enter) (sound : Sound foreign tokens p)
    (files : ∀ t ∈ tokens, t.location.file = file) (ran : rewrite ctx down tokens p = .ok q)
    (quiet : ∀ u ∈ q.expander.macros.bodies, Quiet u) : Rewritten ctx file tokens p q := by
  have keeps : ∀ enter, down = some enter → Keeps enter := fun enter below => (trusted enter below).keeps
  have covers : ∀ enter, down = some enter → Covers Grows enter := fun enter below => (trusted enter below).covers
  fun_induction rewrite ctx down tokens p with
  | case1 p =>
    cases ran
    exact ⟨[], by simp, by simp, [], [], .done file, by simp, fun _ _ _ unfolds => unfolds⟩
  | case2 t rest p name kind ih =>
    obtain ⟨middle, first, later⟩ := andThen_eq_ok ran
    have after := (splice_sound keeps sound kind).ok first
    have grown := (following_grows ctx).rewrite keeps covers after later
    exact Rewritten.splice trusted sound kind (files t List.mem_cons_self) first grown quiet
      (ih middle after (fun u member => files u (List.mem_cons_of_mem _ member)) later)
  | case3 t rest p name kind ih =>
    obtain ⟨middle, first, later⟩ := andThen_eq_ok ran
    have after := (confirm_sound sound kind).ok first
    rw [confirm_keep (sound.claimed kind) first] at later after
    have taken := ih _ after (fun u member => files u (List.mem_cons_of_mem _ member)) later
    exact taken.keep ⟨by simp [kind], by simp [kind]⟩
  | case4 => cases ran
  | case5 => cases ran
  | case6 t rest p name kind span found ih =>
    obtain ⟨middle, first, later⟩ := andThen_eq_ok ran
    obtain ⟨_, _, ⟨other, missing⟩ | ⟨other, same, fits, sounds⟩⟩ := definition_cases sound kind
    · rw [missing] at found
      cases found
    · rw [same] at found
      cases found
      have after := sounds.ok first
      have grown := (following_grows ctx).rewrite keeps covers after later
      have ahead : ∀ u ∈ span.rest, u.location.file = file := by
        intro u member
        apply files u
        rw [fits.parts]
        simp [member]
      obtain rfl := capture_ok (sound.holds.unclaimed t (by simp) name kind) first
      refine Rewritten.capture (ih _ after ahead later) kind fits ?_
      intro u member other is
      have solid : u.isTransparent = false := by simp [Token.isTransparent, TokenKind.isTransparent, is]
      have inBody : u ∈ (span.macroOf t name).body := List.mem_filter.mpr ⟨member, by simp [solid]⟩
      have held : u ∈ (captured p.expander t name span).macros.bodies :=
        (MacroTable.bodies_enter p.expander.macros (span.macroOf t name)).symm ▸ List.mem_append_right _ inBody
      exact (bodies_of_grown grown quiet u held).1 other is
  | case7 t rest p noInclusion _ noDefinition ih =>
    have taken := ih (sound_keep sound) (fun u member => files u (List.mem_cons_of_mem _ member)) ran
    exact taken.keep ⟨noInclusion, noDefinition⟩

theorem stores_bodyFaces (macros : MacroTable) : Stores macros macros.bodyFaces :=
  fun name => (macros.lookup_entries (fun m => faces m.body) name).symm

theorem Completes.unfolds {after : Expander} (completes : Completes e.macros.bodyFaces e after)
    (knows : Knows named e.macros) {out : List TokenKind} (unfolds : Unfolds named (content after.program) out) :
    Unfolds named (content e.program) out := by
  rw [← faceContent_faces] at unfolds ⊢
  refine completes.substitutes.unfolds ?_ unfolds
  intro name body found
  rw [MacroTable.bodyFaces, MacroTable.lookup_entries] at found
  obtain ⟨m, entry, rfl⟩ := Option.map_eq_some_iff.mp found
  rw [faceContent_faces]
  exact knows name m entry

theorem settle_faithful (trusted : ∀ enter, down = some enter → Trusted ctx enter) (passes : Nat) :
    Faithful ctx (settle ctx down passes) := by
  intro foreign file e after holds orderly files ran quiet
  cases passes with
  | zero => cases ran
  | succ passes =>
    have keeps : ∀ enter, down = some enter → Keeps enter := fun enter below => (trusted enter below).keeps
    have covers : ∀ enter, down = some enter → Covers Grows enter := fun enter below => (trusted enter below).covers
    obtain ⟨rewritten, unwrapped, first, second, finish⟩ := settle_succ ran
    have start : Sound foreign e.program { expander := e.countPass } :=
      ⟨holds.aside rfl rfl rfl, orderly⟩
    obtain ⟨halfHolds, halfOrderly⟩ := ((rewrite_sound ctx keeps start).ok first).result
    have grown : ∃ added, after.macros.entries = rewritten.expander.macros.entries ++ added := by
      have unwrapping := (following_grows ctx).unwrap halfHolds halfOrderly second
      rcases finish with later | ⟨_, _, macros⟩
      · obtain ⟨lastHolds, lastOrderly⟩ := ((unwrap_sound _ halfHolds halfOrderly).ok second).result
        obtain ⟨early, unwrapping⟩ := unwrapping
        obtain ⟨late, settling⟩ :=
          (following_grows ctx).settle keeps covers passes foreign _ after lastHolds lastOrderly later
        refine ⟨early ++ late, ?_⟩
        calc after.macros.entries = unwrapped.expander.macros.entries ++ late := settling
          _ = rewritten.expander.macros.entries ++ early ++ late := congrArg (· ++ late) unwrapping
          _ = rewritten.expander.macros.entries ++ (early ++ late) := List.append_assoc _ _ _
      · rw [macros]
        exact unwrapping
    have quietBodies := bodies_of_grown grown quiet
    obtain ⟨new, written, quietNew, words, bodies, gathers, macros, unfolds⟩ :=
      rewrite_yields trusted start files first quietBodies
    have program : rewritten.result.program = new := by simpa [Pass.result] using written
    have halfway : Ready foreign rewritten.result.macros.bodyFaces rewritten.result :=
      ⟨halfHolds, halfOrderly, stores_bodyFaces _, program ▸ quietNew, quietBodies⟩
    have completes := unwrapped_completes halfway second (finish.imp_left (settle_completes (unwrap_ready halfway second).1))
    have same : after.macros = rewritten.expander.macros := completes.macros
    refine ⟨words, bodies, gathers, same ▸ macros, ?_⟩
    intro named out knows later
    rw [same] at knows
    have half := completes.unfolds knows later
    rw [program] at half
    exact unfolds named out knows half

theorem expand_trusted (ctx : Context) (room : Nat) : Trusted ctx (expand ctx room) := by
  induction room with
  | zero => exact ⟨expand_keeps ctx 0, (following_grows ctx).expand 0, settle_faithful (by simp) _⟩
  | succ room ih =>
    refine ⟨expand_keeps ctx _, (following_grows ctx).expand _, settle_faithful ?_ _⟩
    rintro enter ⟨⟩
    exact ih

-- The words of the text, unfolded by the bodies of the text, are what the expansion ends with.
theorem processSource_unfolds {source : List Char} {journal : Journal} {after : Expander}
    (ran : processSource ctx source file { journal } = .ok after) (quiet : ∀ t ∈ after.macros.bodies, Quiet t) :
    ∃ lexed words bodies, ({ journal } : Expander).read ctx.settings source file = .ok lexed ∧
      Gathers ctx file (gist lexed.program) words bodies ∧
        Unfolds (bodies.lookup ·) words (content after.program) := by
  obtain ⟨lexed, read, expanded⟩ := andThen_eq_ok ran
  obtain ⟨holds, orderly, fresh⟩ := (read_keeps ctx.settings source file (holds_fresh journal)).ok read
  obtain ⟨_, lastOrderly, settled⟩ := (processSource_ends ctx source file (holds_fresh journal)).ok ran
  obtain ⟨words, bodies, gathers, macros, unfolds⟩ :=
    (expand_trusted ctx (room ctx lexed)).faithful [] file lexed after holds orderly (read_gist read).2 expanded quiet
  rw [fresh] at macros
  have known : Knows (bodies.lookup ·) after.macros := by
    have all := knows_contents after.macros
    rw [macros] at all
    exact all
  refine ⟨lexed, words, bodies, read, gathers, unfolds _ _ known (.unchanged ?_)⟩
  intro kind member
  obtain ⟨t, there, rfl⟩ := List.mem_map.mp member
  have inProgram := List.mem_of_mem_filter there
  have unused := settled.unwrapped t inProgram
  rw [invoked?_eq (lastOrderly.regular t inProgram)] at unused
  rw [TokenKind.bare_called?]
  cases called : t.kind.called? with
  | none => rfl
  | some name =>
    rw [called] at unused
    have entry := after.macros.lookup_entries (fun m => content m.body) name
    rw [show after.macros.find? name = none from unused] at entry
    have listed : bodies = after.macros.contents := macros.symm
    rw [listed]
    exact entry

end Expander

end RuneAsm
