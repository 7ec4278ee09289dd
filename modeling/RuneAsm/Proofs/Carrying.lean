import Mathlib
import RuneAsm.Proofs.Readings

namespace RuneAsm

open Run

-- What becomes of labels while a program is expanded. Bodies that are taken out keep their labels, copies repeat them,
-- and files bring in new ones; none is lost or changed. The labels of each text stay in their order, unless a body took
-- them out.

-- Where labels stand and what they say. A copy of a label has the site of the original.
def sites (tokens : List Token) : List (Location × TokenKind) := (namedLabels tokens).map fun t => (t.location, t.kind)

@[simp] theorem sites_append (front back : List Token) : sites (front ++ back) = sites front ++ sites back := by
  simp [sites, namedLabels]

theorem sites_cons_of_unnamed {t : Token} (unnamed : t.kind.isNamed = false) (rest : List Token) :
    sites (t :: rest) = sites rest := by
  simp [sites, namedLabels, unnamed]

theorem mem_sites {tokens : List Token} {location : Location} {kind : TokenKind} :
    (location, kind) ∈ sites tokens ↔ kind.isNamed = true ∧ ∃ t ∈ tokens, t.location = location ∧ t.kind = kind := by
  simp only [sites, namedLabels, List.mem_map, List.mem_filter, Prod.mk.injEq]
  constructor
  · rintro ⟨t, ⟨member, named⟩, rfl, rfl⟩
    exact ⟨named, t, member, rfl, rfl⟩
  · rintro ⟨named, t, member, rfl, rfl⟩
    exact ⟨t, ⟨member, named⟩, rfl, rfl⟩

theorem sites_congr {α : Type} {items : List α} {f g : α → Token}
    (same : ∀ x ∈ items, (f x).kind.isNamed = (g x).kind.isNamed ∧
      ((g x).kind.isNamed = true → (f x).location = (g x).location ∧ (f x).kind = (g x).kind)) :
    sites (items.map f) = sites (items.map g) := by
  induction items with
  | nil => rfl
  | cons x items ih =>
    obtain ⟨agree, equal⟩ := same x List.mem_cons_self
    have rest := ih fun y member => same y (List.mem_cons_of_mem _ member)
    cases named : (g x).kind.isNamed with
    | false =>
      rw [List.map_cons, List.map_cons, sites_cons_of_unnamed named, sites_cons_of_unnamed (agree.trans named), rest]
    | true =>
      obtain ⟨location, kind⟩ := equal named
      have other : (f x).kind.isNamed = true := agree.trans named
      simp only [sites, namedLabels, List.map_cons, List.filter_cons, named, other, if_true] at rest ⊢
      rw [rest, location, kind]

namespace Expander

variable {e after : Expander} {t u : Token}
variable {foreign tokens rest live live' : List Token} {texts : List (List Token)}
variable {name : String} {span : BodySpan}

theorem filter_eq_nil_of_ids {pick : Token → Bool} {text : List Token} {bound : Nat}
    (within : ∀ u, pick u = true → u ∈ text)
    (apart : (∀ u ∈ tokens, bound ≤ u.id) ∧ (∀ u ∈ text, u.id < bound) ∨
      (∀ u ∈ tokens, u.id < bound) ∧ ∀ u ∈ text, bound ≤ u.id) : tokens.filter pick = [] := by
  apply List.filter_eq_nil_iff.mpr
  intro u member picked
  have there := within u picked
  rcases apart with ⟨new, old⟩ | ⟨old, new⟩
  · have late := new u member
    have early := old u there
    omega
  · have early := old u member
    have late := new u there
    omega

-- The labels that are held are those of the texts, one text read after the other.
structure Traced (texts : List (List Token)) (e : Expander) (live : List Token) : Prop where
  records : Records e.symbols texts.flatten
  held : ∀ site, site ∈ sites (live ++ e.macros.bodies) ↔ site ∈ sites texts.flatten
  serials : ∀ text ∈ texts, ∀ u ∈ text, u.id < e.nextId
  order : ∀ text ∈ texts, ∀ pick : Token → Bool, (∀ u, pick u = true → u ∈ text) →
    (∀ u ∈ e.macros.bodies, pick u = false) → live.filter pick = text.filter pick

namespace Traced

variable {text : List Token} {pick : Token → Bool}

theorem unpicked (traced : Traced texts e live) (known : text ∈ texts) (within : ∀ u, pick u = true → u ∈ text)
    (unnamed : u.kind.isNamed = false) : pick u = false := by
  by_contra picked
  have member := within u (by simpa using picked)
  have named := traced.records.possible.named (List.mem_flatten.mpr ⟨text, known, member⟩)
  rw [unnamed] at named
  cases named

theorem congr (traced : Traced texts e live) (worded : after.symbols.worded = e.symbols.worded)
    (serial : e.nextId ≤ after.nextId) (bodies : e.macros.bodies ⊆ after.macros.bodies)
    (same : ∀ site, site ∈ sites (live' ++ after.macros.bodies) ↔ site ∈ sites (live ++ e.macros.bodies))
    (order : ∀ text ∈ texts, ∀ pick : Token → Bool, (∀ u, pick u = true → u ∈ text) →
      (∀ u ∈ after.macros.bodies, pick u = false) → live'.filter pick = live.filter pick) :
    Traced texts after live' where
  records := traced.records.congr worded
  held site := (same site).trans (traced.held site)
  serials text known u member := Nat.lt_of_lt_of_le (traced.serials text known u member) serial
  order text known pick within absent :=
    (order text known pick within absent).trans
      (traced.order text known pick within fun u member => absent u (bodies member))

end Traced

theorem worded_erase {symbols : SymbolTable} {label : String} (spaced : ¬ Plain label) :
    (symbols.erase label).worded = symbols.worded := by
  unfold SymbolTable.worded SymbolTable.erase
  rw [List.filter_filter]
  apply List.filter_congr
  intro s _
  by_cases plain : Plain s.name
  · have other : s.name ≠ label := by
      rintro rfl
      exact spaced plain
    simp [plain, other]
  · simp [plain]

theorem captured_worded {front : List Token} (orderly : Orderly (front ++ t :: rest)) (fits : span.Fits rest) :
    (captured e t name span).symbols.worded = e.symbols.worded := by
  have regular : span.closer.kind.Regular := by
    have all := orderly.regular
    rw [fits.parts] at all
    exact all span.closer (by simp)
  obtain ⟨c, _, closes⟩ := fits.pairs.bracket
  cases found : span.closer.kind.label? with
  | none =>
    have same : (captured e t name span).symbols = e.symbols := by simp [captured, note, found]
    rw [same]
  | some label =>
    have same : (captured e t name span).symbols = e.symbols.erase label := by simp [captured, note, found]
    rw [label?_of_closes? closes, TokenKind.closerLabel?_eq_some] at found
    rw [found] at regular
    rw [same, worded_erase regular]

theorem BodySpan.Fits.unnamed (fits : span.Fits rest) :
    span.opener.kind.isNamed = false ∧ span.closer.kind.isNamed = false := by
  have opens := fits.opens
  obtain ⟨c, _, closes⟩ := fits.pairs.bracket
  refine ⟨?_, ?_⟩
  · cases opener : span.opener.kind <;> first | rfl | simp [opener, opensBody] at opens
  · cases closer : span.closer.kind <;> first | rfl | simp [closer, TokenKind.closes?] at closes

theorem sites_solid (tokens : List Token) : sites (tokens.filter (!·.isTransparent)) = sites tokens := by
  unfold sites namedLabels
  rw [List.filter_filter]
  refine congrArg _ (List.filter_congr ?_)
  intro u _
  cases kind : u.kind <;> simp [Token.isTransparent, TokenKind.isTransparent, TokenKind.isNamed, kind]

theorem Traced.captured {front : List Token} (traced : Traced texts e (foreign ++ (front ++ t :: rest)))
    (orderly : Orderly (front ++ t :: rest)) (kind : t.kind = .macroDefinition name false) (fits : span.Fits rest) :
    Traced texts (captured e t name span)
      (foreign ++ (front ++ { t with kind := .macroDefinition name true } :: (span.gap ++ span.rest))) := by
  have grown : (Expander.captured e t name span).macros.bodies = e.macros.bodies ++ (span.macroOf t name).body :=
    MacroTable.bodies_enter e.macros (span.macroOf t name)
  obtain ⟨opener, closer⟩ := fits.unnamed
  have before : t.kind.isNamed = false := by
    rw [kind]
    rfl
  have after : ({ t with kind := .macroDefinition name true } : Token).kind.isNamed = false := rfl
  refine traced.congr (captured_worded orderly fits) (Nat.le_refl _) ?_ ?_ ?_
  · rw [grown]
    exact List.subset_append_left _ _
  · intro site
    rw [grown, fits.parts]
    simp only [sites_append, sites_cons_of_unnamed before, sites_cons_of_unnamed after, sites_cons_of_unnamed opener,
      sites_cons_of_unnamed closer, BodySpan.macroOf, sites_solid, List.mem_append]
    tauto
  · intro text known pick within absent
    -- A label that was inside is now in a body.
    have inside : span.inside.filter pick = [] := by
      apply List.filter_eq_nil_iff.mpr
      intro u member picked
      have solid : u.isTransparent = false := by
        have named := traced.records.possible.named (List.mem_flatten.mpr ⟨text, known, within u picked⟩)
        cases shape : u.kind <;> simp_all [Token.isTransparent, TokenKind.isTransparent, TokenKind.isNamed]
      have stored : u ∈ (Expander.captured e t name span).macros.bodies := by
        rw [grown]
        exact List.mem_append_right _ (List.mem_filter.mpr ⟨member, by simp [solid]⟩)
      rw [absent u stored] at picked
      cases picked
    have unpicked {u : Token} := traced.unpicked (u := u) known within
    rw [fits.parts]
    simp [inside, unpicked before, unpicked opener, unpicked closer, unpicked after]

theorem mapLabel_isNamed (f : String → String) (kind : TokenKind) : (kind.mapLabel f).isNamed = kind.isNamed := by
  cases kind with
  | reference r =>
    rw [mapLabel_reference]
    rfl
  | _ => rfl

variable {m : Macro} {c : Copying}

theorem Renamed.worded (renamed : Renamed e m.body c) (orderly : Orderly m.body) :
    c.expander.symbols.worded = e.symbols.worded := by
  obtain ⟨added, entries, copies⟩ := renamed.entries
  have none : added.filter (Plain ·.name) = [] := by
    apply List.filter_eq_nil_iff.mpr
    intro s member
    obtain ⟨label, closes, n, copied⟩ := copies s member
    obtain ⟨t, there, kind⟩ := mem_closerLabels.mp closes
    have spaced := orderly.regular t there
    rw [kind] at spaced
    simpa [copied] using copy_not_plain spaced
  rw [SymbolTable.worded, entries, List.filter_append, none, List.append_nil, SymbolTable.worded]

theorem Renamed.sites (renamed : Renamed e m.body c) (orderly : Orderly m.body)
    (custody : Custody e.symbols e.nextId m.body) (base : Nat) :
    sites (copyBody base m.body c.label) = RuneAsm.sites m.body := by
  rw [copyBody_eq_map custody.serials]
  conv_rhs => rw [← List.map_id m.body]
  apply sites_congr
  intro t member
  refine ⟨mapLabel_isNamed _ _, ?_⟩
  intro named
  refine ⟨rfl, ?_⟩
  have regular := orderly.regular t member
  change t.kind.mapLabel c.label = t.kind
  cases kind : t.kind with
  | parentLabel label implied =>
    rw [kind] at regular
    rw [TokenKind.mapLabel, renamed.label_plain orderly custody.labels regular.1]
  | childLabel label =>
    rw [kind] at regular
    rw [TokenKind.mapLabel, renamed.label_plain orderly custody.labels regular]
  | _ => simp [kind, TokenKind.isNamed] at named

theorem Traced.copied {front : List Token} (traced : Traced texts e (foreign ++ (front ++ t :: rest)))
    (holds : e.Holds (foreign ++ (front ++ t :: rest))) (unnamed : t.kind.isNamed = false)
    (known : m ∈ e.macros.entries) (renamed : Renamed e m.body c) :
    Traced texts (c.finished m t) (foreign ++ (front ++ copyBody c.expander.nextId m.body c.label ++ rest)) := by
  have orderly := (holds.stored m known).1
  have macros : (c.finished m t).macros = e.macros := renamed.macros_eq
  have bodies : e.macros.bodies ⊆ (c.finished m t).macros.bodies := by
    rw [macros]
    exact List.Subset.refl _
  refine traced.congr (renamed.worded orderly) (renamed.nextId_le t) bodies ?_ ?_
  · intro site
    have stored : site ∈ RuneAsm.sites m.body → site ∈ RuneAsm.sites e.macros.bodies := by
      intro member
      obtain ⟨named, u, there, location, same⟩ := mem_sites.mp member
      exact mem_sites.mpr ⟨named, u, List.mem_flatMap.mpr ⟨m, known, there⟩, location, same⟩
    rw [macros]
    simp only [sites_append, sites_cons_of_unnamed unnamed, renamed.sites orderly (holds.body_custody known),
      List.mem_append]
    tauto
  · intro text known pick within _
    have none : (copyBody c.expander.nextId m.body c.label).filter pick = [] :=
      filter_eq_nil_of_ids within (.inl ⟨fun _ => renamed.copy_fresh, traced.serials text known⟩)
    simp [none, traced.unpicked known within unnamed]

-- A text that is read adds its labels, all with new serial numbers.
theorem Traced.read {lexed : Expander} {settings : Settings} {source : List Char} {file : String}
    (traced : Traced texts e live) (holds : e.Holds live) (ran : e.read settings source file = .ok lexed) :
    Traced (texts ++ [namedLabels lexed.program]) lexed (live ++ lexed.program) := by
  obtain ⟨macros, serial, ranged, records⟩ := read_records holds.custody.distinct ran
  have old : ∀ u ∈ live, u.id < e.nextId := fun u member => holds.custody.fresh u (List.mem_append_left _ member)
  have flat : (texts ++ [namedLabels lexed.program]).flatten = texts.flatten ++ namedLabels lexed.program := by simp
  refine ⟨?_, ?_, ?_, ?_⟩
  · rw [flat]
    exact records _ traced.records
  · intro site
    have before := traced.held site
    have own : sites (namedLabels lexed.program) = sites lexed.program := by simp [sites, namedLabels]
    rw [macros, flat]
    simp only [sites_append, own, List.mem_append] at before ⊢
    tauto
  · intro text known u member
    rcases List.mem_append.mp known with early | late
    · exact Nat.lt_of_lt_of_le (traced.serials text early u member) serial
    · rw [List.mem_singleton.mp late] at member
      exact (ranged u (List.mem_of_mem_filter member)).2
  · intro text known pick within absent
    rw [List.filter_append]
    rcases List.mem_append.mp known with early | late
    · have none : lexed.program.filter pick = [] :=
        filter_eq_nil_of_ids within (.inl ⟨fun u member => (ranged u member).1, traced.serials text early⟩)
      rw [none, List.append_nil]
      exact traced.order text early pick within (macros ▸ absent)
    · obtain rfl := List.mem_singleton.mp late
      have none : live.filter pick = [] := by
        apply filter_eq_nil_of_ids within
        exact .inr ⟨old, fun u member => (ranged u (List.mem_of_mem_filter member)).1⟩
      rw [none, List.nil_append, namedLabels, List.filter_filter]
      apply List.filter_congr
      intro u _
      cases picked : pick u with
      | false => rfl
      | true =>
        have named := List.of_mem_filter (within u picked)
        simpa using named.symm

-- A text is on one side: the program of a file can be moved past tokens that were there before it.
theorem Traced.spliced {front new : List Token} {bound : Nat}
    (traced : Traced texts e (foreign ++ (front ++ t :: rest) ++ new)) (unnamed : t.kind.isNamed = false)
    (sided : ∀ text ∈ texts, (∀ u ∈ text, u.id < bound) ∨ ∀ u ∈ text, bound ≤ u.id)
    (old : ∀ u ∈ foreign ++ (front ++ t :: rest), u.id < bound) (fresh : ∀ u ∈ new, bound ≤ u.id) :
    Traced texts e (foreign ++ (front ++ new ++ rest)) := by
  refine traced.congr rfl (Nat.le_refl _) (List.Subset.refl _) ?_ ?_
  · intro site
    simp only [sites_append, sites_cons_of_unnamed unnamed, List.mem_append]
    tauto
  · intro text known pick within _
    have unpicked := traced.unpicked known within unnamed
    rcases sided text known with early | late
    · have none : new.filter pick = [] := filter_eq_nil_of_ids within (.inl ⟨fresh, early⟩)
      simp [none, unpicked]
    · have none : (foreign ++ (front ++ t :: rest)).filter pick = [] := filter_eq_nil_of_ids within (.inr ⟨old, late⟩)
      obtain ⟨outer, before, after⟩ :
          foreign.filter pick = [] ∧ front.filter pick = [] ∧ rest.filter pick = [] := by
        simpa only [List.filter_append, List.append_eq_nil_iff, List.filter_cons_of_neg, unpicked, Bool.false_eq_true,
          not_false_eq_true] using none
      simp only [List.filter_append, outer, before, after, none, List.nil_append, List.append_nil]

end Expander

def Reading.labels (r : Reading) : List Token := namedLabels r.text

-- Every action carries the labels on, so every expansion does.
theorem Expander.traced_tracking (ctx : Context) :
    Tracking ctx fun readings e live => Traced (readings.map Reading.labels) e live where
  start journal chain := ⟨⟨.nil, rfl⟩, by simp [MacroTable.bodies], by simp, by simp⟩
  aside traced symbols macros nextId :=
    traced.congr (by rw [symbols]) (by rw [nextId]) (by simp [macros]) (by simp [macros]) fun _ _ _ _ _ => rfl
  read traced holds ran := by
    rw [List.map_append]
    exact traced.read holds ran
  captured traced orderly kind fits := traced.captured orderly kind fits
  copied traced holds kind known renamed := traced.copied holds (by rw [kind]; rfl) known renamed
  spliced traced kind sided old fresh := by
    refine traced.spliced (by rw [kind]; rfl) ?_ old fresh
    intro text known
    obtain ⟨r, read, rfl⟩ := List.mem_map.mp known
    rcases sided r read with early | late
    · exact .inl fun u member => early u (List.mem_of_mem_filter member)
    · exact .inr fun u member => late u (List.mem_of_mem_filter member)

end RuneAsm
