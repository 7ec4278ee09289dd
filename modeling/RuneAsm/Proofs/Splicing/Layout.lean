import Mathlib
import RuneAsm.Proofs.Respacing.Layout
import RuneAsm.Proofs.Splicing.Expansion

namespace RuneAsm

open Run

-- Programs of the same content are laid out alike, whatever their label tables hold besides. The labels of the inline
-- subroutines of one are taken to those of the other, brace by brace; the bytes are the same, and so are the addresses
-- of the labels that the words of the program place.

variable {σ : String → String}

-- Labels that are words stay; the others are known to correspond.
theorem kind_of_bare {kind kind' : TokenKind} (same : kind'.bare = kind.bare) (regular : kind.Regular)
    (fixes : ∀ x, Plain x → σ x = x) (whole : ∀ label implied, kind = .parentLabel label implied → '/' ∉ label.toList)
    (inner : ∀ x, kind.label? = some x → ¬ Plain x → kind'.label? = some (σ x)) : kind' = kind.mapLabel σ := by
  cases kind with
  | parentLabel label implied =>
    have slash := whole label implied rfl
    cases kind' with
    | parentLabel label' implied' =>
      simp only [TokenKind.bare, slash, if_false, TokenKind.parentLabel.injEq] at same
      obtain ⟨rfl, parents⟩ := same
      rw [if_neg slash] at parents
      rw [parents, TokenKind.mapLabel, fixes label' regular.1]
    | reference r => cases target : r.target <;> simp [TokenKind.bare, target] at same
    | _ => cases same
  | childLabel label =>
    cases kind' with
    | childLabel label' =>
      cases same
      rw [TokenKind.mapLabel, fixes label regular]
    | reference r => cases target : r.target <;> simp [TokenKind.bare, target] at same
    | _ => cases same
  | subroutineClose label =>
    cases kind' with
    | subroutineClose label' =>
      have label := inner label rfl regular
      cases label
      rfl
    | reference r => cases target : r.target <;> simp [TokenKind.bare, target] at same
    | _ => cases same
  | reference r =>
    have suits := regular.2
    cases kind' with
    | reference r' =>
      obtain ⟨form, mode, instruction, target⟩ := r
      obtain ⟨form', mode', instruction', target'⟩ := r'
      cases target with
      | named label =>
        cases target' with
        | named label' =>
          cases same
          simp only [TokenKind.mapLabel, fixes label suits.1]
        | «inline» label' => cases same
      | «inline» label =>
        obtain ⟨l, rfl, spaced⟩ := suits.1
        cases target' with
        | named label' => cases same
        | «inline» label' =>
          have label : label' = some (σ l) := inner l rfl spaced
          cases same
          rw [label]
          rfl
    | _ => cases target : r.target <;> simp [TokenKind.bare, target] at same
  | _ =>
    cases kind' with
    | reference r => cases target : r.target <;> simp [TokenKind.bare, target] at same
    | _ => cases same <;> rfl

theorem plain_of_label? {kind : TokenKind} {label : String} (regular : kind.Regular) (opensNone : kind.closer? = none)
    (closesNone : kind.closes? = none) (labelled : kind.label? = some label) : Plain label := by
  cases kind with
  | parentLabel name implied =>
    cases labelled
    exact regular.1
  | childLabel name =>
    cases labelled
    exact regular
  | subroutineClose name => cases closesNone
  | reference r =>
    have suits := regular.2
    cases target : r.target with
    | named name =>
      rw [target] at suits
      simp only [TokenKind.label?, target, Target.label?] at labelled
      cases labelled
      exact suits.1
    | «inline» name => simp [TokenKind.closer?, target] at opensNone
  | _ => cases labelled

theorem closerLabel?_of_bare {kind kind' : TokenKind} (same : kind'.bare = kind.bare) :
    kind'.closerLabel?.isSome = kind.closerLabel?.isSome := by
  have shown (kind : TokenKind) : kind.bare.closerLabel?.isSome = kind.closerLabel?.isSome :=
    kind.bare_congr (·.closerLabel?.isSome) (fun _ _ _ => rfl) (fun _ _ => rfl) (fun _ _ _ _ _ => rfl)
  rw [← shown kind', same, shown kind]

variable {stack stack' tokens tokens' : List Token}

-- An opening brace has the label of its partner, which is met further on; so the correspondence of the open brackets
-- is a result of the walk and not a premise.
theorem agree_of_bare (fixes : ∀ x, Plain x → σ x = x) (first : Nesting stack tokens [])
    (second : Nesting stack' tokens' []) (same : tokens'.map (·.kind.bare) = tokens.map (·.kind.bare))
    (regular : ∀ t ∈ tokens, t.kind.Regular)
    (whole : ∀ t ∈ tokens, ∀ label implied, t.kind = .parentLabel label implied → '/' ∉ label.toList)
    (labels : List.Forall₂ (fun x y => σ x = y) (closerLabels tokens) (closerLabels tokens')) :
    List.Forall₂ (fun o o' : Token => o'.kind.label? = o.kind.label?.map σ) stack stack' ∧
      List.Forall₂ (fun t t' : Token => t'.kind = t.kind.mapLabel σ) tokens tokens' := by
  induction tokens generalizing stack stack' tokens' with
  | nil =>
    rw [List.map_nil, List.map_eq_nil_iff] at same
    subst same
    cases first
    cases second
    exact ⟨.nil, .nil⟩
  | cons t rest ih =>
    obtain ⟨t', rest', rfl, here, more⟩ := List.map_eq_cons_iff.mp same
    have opensSame : t'.kind.closer? = t.kind.closer? := by
      rw [← t'.kind.bare_closer?, here, t.kind.bare_closer?]
    have closesSame : t'.kind.closes? = t.kind.closes? := by
      rw [← t'.kind.bare_closes?, here, t.kind.bare_closes?]
    have regularHere := regular t List.mem_cons_self
    have wholeHere := whole t List.mem_cons_self
    have regularRest := fun u member => regular u (List.mem_cons_of_mem t member)
    have wholeRest := fun u member => whole u (List.mem_cons_of_mem t member)
    rw [closerLabels_cons, closerLabels_cons] at labels
    cases closes : t.kind.closes? with
    | none =>
      rw [closerLabel?_of_closes? closes, closerLabel?_of_closes? (closesSame.trans closes)] at labels
      cases opens : t.kind.closer? with
      | none =>
        obtain ⟨_, tail⟩ := first.of_plain opens closes
        obtain ⟨_, tail'⟩ := second.of_plain (opensSame.trans opens) (closesSame.trans closes)
        obtain ⟨open', agree⟩ := ih tail tail' more regularRest wholeRest labels
        refine ⟨open', .cons (kind_of_bare here regularHere fixes wholeHere ?_) agree⟩
        intro x labelled spaced
        exact absurd (plain_of_label? regularHere opens closes labelled) spaced
      | some c =>
        obtain ⟨open', agree⟩ := ih (first.of_opening opens) (second.of_opening (opensSame.trans opens)) more regularRest
          wholeRest labels
        cases open' with
        | cons label below =>
          refine ⟨below, .cons (kind_of_bare here regularHere fixes wholeHere ?_) agree⟩
          intro x labelled _
          rw [label, labelled]
          rfl
    | some c =>
      obtain ⟨opener, below, rfl, pairs, tail⟩ := first.of_closing closes
      obtain ⟨opener', below', rfl, pairs', tail'⟩ := second.of_closing (closesSame.trans closes)
      have own := label?_of_closes? closes
      have own' := label?_of_closes? (closesSame.trans closes)
      have both := closerLabel?_of_bare here
      -- A square bracket has no label, and a brace has the next one.
      have corresponds : t'.kind.label? = t.kind.label?.map σ ∧
          List.Forall₂ (fun x y => σ x = y) (closerLabels rest) (closerLabels rest') := by
        rw [own, own']
        cases label : t.kind.closerLabel? with
        | none =>
          rw [label] at both labels
          have none : t'.kind.closerLabel? = none := Option.isNone_iff_eq_none.mp (by simpa using both)
          rw [none] at labels ⊢
          exact ⟨rfl, labels⟩
        | some x =>
          rw [label] at both labels
          obtain ⟨y, label'⟩ := Option.isSome_iff_exists.mp both
          rw [label'] at labels ⊢
          cases labels with
          | cons first later => exact ⟨congrArg some first.symm, later⟩
      obtain ⟨belowAgree, agree⟩ := ih tail tail' more regularRest wholeRest corresponds.2
      refine ⟨.cons ?_ belowAgree, .cons (kind_of_bare here regularHere fixes wholeHere ?_) agree⟩
      · rw [pairs.label, pairs'.label]
        exact corresponds.1
      · intro x labelled _
        rw [corresponds.1, labelled]
        rfl

-- The layout passes over the other tokens, none of which is a brace.
def counted (tokens : List Token) : List Token := tokens.filter (!·.kind.isIdle)

theorem closerLabels_counted (tokens : List Token) : closerLabels (counted tokens) = closerLabels tokens := by
  unfold closerLabels counted
  rw [List.filterMap_filter]
  apply List.filterMap_congr
  intro t _
  cases kind : t.kind <;> simp [TokenKind.closerLabel?, TokenKind.isIdle]

theorem balanced_counted (balanced : Balanced tokens) : Balanced (counted tokens) := by
  apply balanced.filter
  intro opener closer pairs
  obtain ⟨c, opens, closes⟩ := pairs.bracket
  cases second : closer.kind with
  | groupClose =>
    rw [second] at closes
    cases closes
    rw [TokenKind.closer?_eq_square.mp opens]
    rfl
  | subroutineClose label =>
    rw [second] at closes
    cases closes
    obtain ⟨r, inner, kind, _⟩ := TokenKind.closer?_eq_curly.mp opens
    rw [kind]
    rfl
  | _ =>
    rw [second] at closes
    cases closes

theorem length_closerLabels_of_bare (same : tokens'.map (·.kind.bare) = tokens.map (·.kind.bare)) :
    (closerLabels tokens').length = (closerLabels tokens).length := by
  induction tokens generalizing tokens' with
  | nil =>
    rw [List.map_nil, List.map_eq_nil_iff] at same
    rw [same]
  | cons t rest ih =>
    obtain ⟨t', rest', rfl, here, more⟩ := List.map_eq_cons_iff.mp same
    have both := closerLabel?_of_bare here
    rw [closerLabels_cons, closerLabels_cons, List.length_append, List.length_append, ih more]
    congr 1
    cases label : t.kind.closerLabel? <;> cases label' : t'.kind.closerLabel? <;> simp_all

theorem exists_agreement (orderly : Orderly tokens) (orderly' : Orderly tokens') (labels : (closerLabels tokens).Nodup)
    (labels' : (closerLabels tokens').Nodup) (same : content tokens' = content tokens)
    (whole : ∀ t ∈ tokens, ∀ label implied, t.kind = .parentLabel label implied → '/' ∉ label.toList) :
    ∃ σ : String → String, Function.Injective σ ∧ (∀ x, Plain x → σ x = x) ∧
      List.Forall₂ (fun t t' : Token => t'.kind = t.kind.mapLabel σ) (counted tokens) (counted tokens') := by
  have spaced {tokens : List Token} (orderly : Orderly tokens) : ∀ label ∈ closerLabels tokens, ¬ Plain label := by
    intro label member
    obtain ⟨t, there, kind⟩ := mem_closerLabels.mp member
    have regular := orderly.regular t there
    rw [kind] at regular
    exact regular
  have size : (closerLabels tokens').length = (closerLabels tokens).length := by
    rw [← closerLabels_counted tokens, ← closerLabels_counted tokens']
    exact length_closerLabels_of_bare same
  obtain ⟨π, fixes, maps⟩ := exists_perm (P := (¬ Plain ·)) ((closerLabels tokens).zip (closerLabels tokens'))
    (fun pair member => ⟨spaced orderly _ (List.of_mem_zip member).1, spaced orderly' _ (List.of_mem_zip member).2⟩)
    (by rwa [List.map_fst_zip size.ge]) (by rwa [List.map_snd_zip size.le])
  have plain : ∀ x, Plain x → π x = x := fun x plain => fixes x (not_not.mpr plain)
  refine ⟨π, π.injective, plain, ?_⟩
  have pairs : List.Forall₂ (fun x y => π x = y) (closerLabels tokens) (closerLabels tokens') :=
    List.forall₂_iff_zip.mpr ⟨size.symm, fun member => maps _ member⟩
  rw [← closerLabels_counted tokens, ← closerLabels_counted tokens'] at pairs
  exact (agree_of_bare plain (balanced_counted orderly.balanced) (balanced_counted orderly'.balanced) same
    (fun t member => orderly.regular t (List.mem_of_mem_filter member))
    (fun t member => whole t (List.mem_of_mem_filter member)) pairs).2

namespace SymbolTable

def SameAddresses (σ : String → String) (t t' : SymbolTable) : Prop := ∀ x, t'.addressOf? (σ x) = t.addressOf? x

theorem tracks_sameAddresses (injective : Function.Injective σ) (plain : ∀ x, Plain x → σ x = x) :
    Tracks σ (SameAddresses σ) := by
  refine ⟨plain, fun _ _ same => same, ?_⟩
  intro t t' same x _ address location location'
  rcases place_cases t x address location with ⟨⟨a, present⟩, s, failed⟩ | ⟨absent, next, placed, addresses⟩
  · rcases place_cases t' (σ x) address location' with ⟨_, s', failed'⟩ | ⟨absent', _⟩
    · exact .inl ⟨s, s', failed, failed'⟩
    · rw [same, present] at absent'
      cases absent'
  · rcases place_cases t' (σ x) address location' with ⟨⟨a, present'⟩, _⟩ | ⟨_, next', placed', addresses'⟩
    · rw [same, absent] at present'
      cases present'
    · refine .inr ⟨next, next', placed, placed', ?_⟩
      intro y
      simp only [addresses, addresses', same y, injective.eq_iff]

-- What placing labels leaves alone.
structure Settles (t next : SymbolTable) : Prop where
  distinct : t.Distinct → next.Distinct
  veiled : t.Veiled → next.Veiled
  anonymous : ∀ x, t.Anonymous x → next.Anonymous x

variable {t next last : SymbolTable}

theorem Settles.refl (t : SymbolTable) : Settles t t := ⟨id, id, fun _ => id⟩

theorem Settles.trans (first : Settles t next) (second : Settles next last) : Settles t last :=
  ⟨second.distinct ∘ first.distinct, second.veiled ∘ first.veiled, fun x => second.anonymous x ∘ first.anonymous x⟩

-- A table of which the addresses alone have changed.
theorem settles_map (f : Symbol → Symbol) (name : ∀ s, (f s).name = s.name) (flag : ∀ s, (f s).anonymous = s.anonymous) :
    Settles t ⟨t.entries.map f⟩ := by
  have names : SymbolTable.names ⟨t.entries.map f⟩ = t.names := by
    simp [SymbolTable.names, Function.comp_def, name]
  refine ⟨fun distinct => by rwa [Distinct, names], ?_, ?_⟩
  · intro veiled s member anonymous
    obtain ⟨old, there, rfl⟩ := List.mem_map.mp member
    rw [name]
    exact veiled old there (by rwa [flag] at anonymous)
  · rintro x ⟨s, found, anonymous⟩
    refine ⟨f s, ?_, by rwa [flag]⟩
    have same : ((fun s => decide (s.name = x)) ∘ f) = fun s => decide (s.name = x) := by
      funext s
      simp [name]
    unfold find? at found ⊢
    rw [List.find?_map, same, found]
    rfl

theorem settles_clearAddresses (t : SymbolTable) : Settles t t.clearAddresses :=
  settles_map _ (fun _ => rfl) (fun _ => rfl)

theorem settles_place {name : String} {address : Int} {location : Location}
    (placed : t.place name address location = .ok next) : Settles t next := by
  unfold place at placed
  split at placed
  · rename_i absent
    cases placed
    refine ⟨?_, ?_, fun x known => anonymous_of_append rfl known⟩
    · intro distinct
      simp only [Distinct, names, List.map_append, List.map_cons, List.map_nil]
      exact List.Nodup.append distinct (List.nodup_singleton _) (List.disjoint_singleton.mpr (find?_eq_none.mp absent))
    · intro veiled s member flag
      rcases List.mem_append.mp member with old | new
      · exact veiled s old flag
      · rw [List.mem_singleton.mp new] at flag
        cases flag
  · split at placed
    · cases placed
    · cases placed
      apply settles_map
      · intro s
        split <;> rfl
      · intro s
        split <;> rfl

theorem mem_addresses (distinct : t.Distinct) {name : String} {address : Int} :
    (name, address) ∈ t.addresses ↔ ¬ t.Anonymous name ∧ t.addressOf? name = some address := by
  unfold addresses addressOf?
  constructor
  · intro member
    obtain ⟨s, there, kept⟩ := List.mem_filterMap.mp member
    split at kept
    · cases kept
    · rename_i flag
      obtain ⟨a, given, pair⟩ := Option.map_eq_some_iff.mp kept
      cases pair
      have found := find?_of_mem distinct there
      refine ⟨?_, by rw [found]; exact given⟩
      rintro ⟨other, again, anonymous⟩
      rw [found] at again
      cases again
      exact flag anonymous
  · rintro ⟨named, given⟩
    obtain ⟨s, found, address⟩ := Option.bind_eq_some_iff.mp given
    have flag : ¬ s.anonymous = true := fun anonymous => named ⟨s, found, anonymous⟩
    refine List.mem_filterMap.mpr ⟨s, List.mem_of_find?_eq_some found, ?_⟩
    rw [if_neg flag, address, Option.map_some, name_of_find? found]

theorem nodup_addresses (distinct : t.Distinct) : (t.addresses.map (·.1)).Nodup := by
  refine distinct.sublist ?_
  unfold addresses names
  induction t.entries with
  | nil => exact .slnil
  | cons s rest ih =>
    rw [List.filterMap_cons, List.map_cons]
    split
    · exact ih.cons _
    · rename_i pair kept
      split at kept
      · cases kept
      · obtain ⟨a, _, rfl⟩ := Option.map_eq_some_iff.mp kept
        exact ih.cons_cons _

end SymbolTable

-- What is known of a program that has been expanded, and of its label table.
structure Prepared (symbols : SymbolTable) (tokens : List Token) : Prop where
  custody : ∃ nextId, Custody symbols nextId tokens
  orderly : Orderly tokens
  spliced : ∀ t ∈ tokens, ∀ name, t.kind ≠ .inclusion name

theorem Expander.Settled.prepared {e : Expander} (settled : e.Settled) (holds : e.Holds e.program)
    (orderly : Orderly e.program) : Prepared e.symbols e.program :=
  ⟨⟨e.nextId, holds.custody.sublist (List.sublist_append_left _ _)⟩, orderly, settled.spliced⟩

namespace Layout

variable {l l' next last last' : Layout} {t : Token}

theorem step_idle (l : Layout) (t : Token) (idle : t.kind.isIdle = true) : step l t = .ok l := by
  unfold step
  cases kind : t.kind <;> first | rfl | (rw [kind] at idle; cases idle)

theorem step_settles (regular : t.kind.Regular) (noInclusion : ∀ name, t.kind ≠ .inclusion name)
    (stepped : step l t = .ok next) : l.symbols.Settles next.symbols := by
  by_cases placesNone : t.kind.places = []
  · obtain ⟨same, stepped', moves⟩ := step_moves_cursor l regular noInclusion placesNone
    rw [stepped] at stepped'
    cases stepped'
    rw [moves.symbols]
    exact .refl _
  · rw [step_places l placesNone] at stepped
    generalize t.kind.places = names at stepped
    induction names generalizing l with
    | nil =>
      cases stepped
      exact .refl _
    | cons name rest ih =>
      obtain ⟨middle, first, later⟩ := andThen_eq_ok stepped
      refine SymbolTable.Settles.trans ?_ (ih later)
      simp only [placeLabel] at first
      split at first
      · rename_i symbols placed
        cases first
        exact SymbolTable.settles_place placed
      · cases first

theorem linearize_settles (regular : ∀ t ∈ tokens, t.kind.Regular)
    (noInclusion : ∀ t ∈ tokens, ∀ name, t.kind ≠ .inclusion name) (walked : l.linearize tokens = .ok next) :
    l.symbols.Settles next.symbols := by
  have start : l.symbols.Settles l.restart.symbols := SymbolTable.settles_clearAddresses l.symbols
  unfold linearize at walked
  generalize l.restart = here at walked start
  induction tokens generalizing here with
  | nil =>
    cases walked
    exact start
  | cons t rest ih =>
    obtain ⟨middle, first, later⟩ := andThen_eq_ok walked
    have stepped := step_settles (regular t List.mem_cons_self) (noInclusion t List.mem_cons_self) first
    exact ih (fun u member => regular u (List.mem_cons_of_mem _ member))
      (fun u member => noInclusion u (List.mem_cons_of_mem _ member)) middle later (start.trans stepped)

theorem generate_laid (prepared : Prepared l.symbols tokens) (ran : l.generate tokens = .ok last) :
    ∃ next, l.linearize tokens = .ok next ∧ Laid l.restart tokens next ∧ last.symbols = next.symbols := by
  obtain ⟨_, custody⟩ := prepared.custody
  obtain ⟨next, walked, filled⟩ := andThen_eq_ok ran
  have laid := (linearize_ends l prepared.orderly.regular prepared.spliced custody.labels).ok walked
  exact ⟨next, walked, laid, ((resolveRecords_ends { next with records := #[] } laid.waits).ok filled).1⟩

-- The addresses are those of the walk, which settles the table; a label has a name of its own if it is a word.
theorem generate_addresses (prepared : Prepared l.symbols tokens) (ran : l.generate tokens = .ok last) :
    last.symbols.Distinct ∧
      ∀ name a, (name, a) ∈ last.symbols.addresses ↔ Plain name ∧ last.symbols.addressOf? name = some a := by
  obtain ⟨_, custody⟩ := prepared.custody
  obtain ⟨next, walked, laid, symbols⟩ := generate_laid prepared ran
  have settles := linearize_settles prepared.orderly.regular prepared.spliced walked
  have distinct := settles.distinct custody.distinct
  rw [symbols]
  refine ⟨distinct, ?_⟩
  intro name a
  rw [SymbolTable.mem_addresses distinct]
  refine and_congr_left ?_
  intro given
  constructor
  · intro named
    obtain ⟨front, t, back, _, rfl, _, places, _⟩ := (laid.addresses name a).mp given
    rcases TokenKind.places_cases (prepared.orderly.regular t (by simp)) places with plain | closer
    · exact plain
    · have declared := custody.declared name (mem_closerLabels.mpr ⟨t, by simp, closer⟩)
      exact absurd (settles.anonymous name declared) named
  · rintro plain ⟨s, found, anonymous⟩
    have spaced := settles.veiled custody.veiled s (List.mem_of_find?_eq_some found) anonymous
    rw [SymbolTable.name_of_find? found] at spaced
    exact spaced plain

-- Programs of the same content: the records of one become those of the other by a change of inner labels.
theorem generate_alike (l l' : Layout) (prepared : Prepared l.symbols tokens) (prepared' : Prepared l'.symbols tokens')
    (base : l'.loadBase = l.loadBase) (same : content tokens' = content tokens)
    (whole : ∀ t ∈ tokens, ∀ label implied, t.kind = .parentLabel label implied → '/' ∉ label.toList) :
    ∃ σ, (∀ x, Plain x → σ x = x) ∧
      Alike (Like σ (SymbolTable.SameAddresses σ)) (l.generate tokens) (l'.generate tokens') := by
  obtain ⟨_, custody⟩ := prepared.custody
  obtain ⟨_, custody'⟩ := prepared'.custody
  obtain ⟨σ, injective, plain, agree⟩ :=
    exists_agreement prepared.orderly prepared'.orderly custody.labels custody'.labels same whole
  have tracks := SymbolTable.tracks_sameAddresses injective plain
  refine ⟨σ, plain, ?_⟩
  have start : SymbolTable.SameAddresses σ l.symbols.clearAddresses l'.symbols.clearAddresses := by
    intro x
    rw [SymbolTable.addressOf?_clearAddresses, SymbolTable.addressOf?_clearAddresses]
  refine (linearize_alike tracks start base (fun l t idle => step_idle l t (by simpa using idle)) agree
    (fun t member => ⟨prepared.orderly.regular t member, prepared.spliced t member⟩) ?_).andThen
    (fun _ _ like => resolve_alike tracks like)
  exact fun label member => SymbolTable.mem_names_of_anonymous (custody.declared label member)

theorem addresses_perm (prepared : Prepared l.symbols tokens) (prepared' : Prepared l'.symbols tokens')
    (plain : ∀ x, Plain x → σ x = x) (same : SymbolTable.SameAddresses σ last.symbols last'.symbols)
    (ran : l.generate tokens = .ok last) (ran' : l'.generate tokens' = .ok last') :
    last'.symbols.addresses.Perm last.symbols.addresses := by
  obtain ⟨distinct, addresses⟩ := generate_addresses prepared ran
  obtain ⟨distinct', addresses'⟩ := generate_addresses prepared' ran'
  refine (List.perm_ext_iff_of_nodup (SymbolTable.nodup_addresses distinct').of_map
    (SymbolTable.nodup_addresses distinct).of_map).mpr ?_
  rintro ⟨name, a⟩
  rw [addresses, addresses']
  refine and_congr_right ?_
  intro word
  rw [← same name, plain name word]

end Layout

end RuneAsm
