import Mathlib
import RuneAsm.Proofs.Carrying
import RuneAsm.Proofs.Inputs
import RuneAsm.Proofs.Reuse
import RuneAsm.Proofs.Splicing.Layout

namespace RuneAsm

open Run

-- Where a parent is placed that is only written as a part of other names. The first of its labels to be read declares
-- it and places it wherever that label comes to stand. The order of reading is not the order of the program: what a
-- file holds is read after the text that includes it, and a body that is never invoked is read but placed nowhere.

theorem TokenKind.isNamed_of_places {kind : TokenKind} {name : String} (regular : kind.Regular) (plain : Plain name)
    (places : name ∈ kind.places) : kind.isNamed = true := by
  cases kind with
  | subroutineClose label =>
    rw [List.mem_singleton.mp places] at plain
    exact absurd plain regular
  | parentLabel label implied => rfl
  | childLabel label => rfl
  | _ => simp [TokenKind.places] at places

def Token.site (t : Token) : Location × TokenKind := (t.location, t.kind)

namespace Expander.Traced

variable {texts : List (List Token)} {e : Expander} {live text : List Token} {parent own : String} {t u first : Token}

theorem site_mem (traced : Traced texts e live) (member : first ∈ texts.flatten) :
    first.site ∈ sites live ∨ first.site ∈ sites e.macros.bodies := by
  have named := traced.records.possible.named member
  have held := (traced.held first.site).mpr (mem_sites.mpr ⟨named, first, member, rfl, rfl⟩)
  rwa [sites_append, List.mem_append] at held

-- Every label that stands in the program was read, there or in the original of a copy.
theorem exists_read (traced : Traced texts e live) (there : u ∈ live) (named : u.kind.isNamed = true) :
    ∃ v ∈ texts.flatten, v.site = u.site := by
  have held : u.site ∈ sites texts.flatten := by
    rw [← traced.held, sites_append]
    exact List.mem_append_left _ (mem_sites.mpr ⟨named, u, there, rfl, rfl⟩)
  obtain ⟨_, v, read, location, kind⟩ := mem_sites.mp held
  exact ⟨v, read, Prod.ext location kind⟩

-- Only copies of one label place a name.
theorem site_eq (traced : Traced texts e live) (distinct : e.symbols.Distinct) (member : first ∈ texts.flatten)
    (places : parent ∈ first.kind.places) (there : u ∈ live) (named : u.kind.isNamed = true)
    (again : parent ∈ u.kind.places) : u.site = first.site := by
  obtain ⟨v, read, site⟩ := traced.exists_read there named
  have kind : v.kind = u.kind := congrArg Prod.snd site
  have same : v = first := traced.records.unique distinct read member (kind ▸ again) places
  rw [← site, same]

-- Some label of the parent was read first, and it declares the parent.
theorem exists_first (traced : Traced texts e live) (above : parentOf own = some parent) (there : t ∈ live)
    {implied : Option String} (kind : t.kind = .parentLabel own implied) :
    ∃ first, texts.flatten.find? (·.kind.isUnder parent) = some first ∧ parent ∈ first.kind.places ∧
      ∃ label implied, first.kind = .parentLabel label implied ∧
        (label = parent ∨ implied = some parent ∧ parentOf label = some parent) := by
  obtain ⟨v, read, site⟩ := traced.exists_read there (by rw [kind]; rfl)
  have same : v.kind = t.kind := congrArg Prod.snd site
  have under : v.kind.isUnder parent = true := by simp [same, kind, TokenKind.isUnder, above]
  have present : (texts.flatten.find? (·.kind.isUnder parent)).isSome := List.find?_isSome.mpr ⟨v, read, under⟩
  obtain ⟨first, found⟩ := Option.isSome_iff_exists.mp present
  have slashless := parentOf_parentOf above
  obtain ⟨_, _, _, _, places⟩ := traced.records.possible.first_places slashless found
  exact ⟨first, found, places,
    traced.records.possible.places_parent (List.mem_of_find?_eq_some found) slashless places⟩

theorem first_mem_text (traced : Traced texts e live) (distinct : e.symbols.Distinct) (known : text ∈ texts)
    (found : texts.flatten.find? (·.kind.isUnder parent) = some first) (places : parent ∈ first.kind.places)
    (outside : ∀ u ∈ e.macros.bodies, u.kind.isUnder parent = false)
    (together : ∀ u ∈ live, u.kind.isUnder parent = true → u ∈ text) : first ∈ text := by
  have member := List.mem_of_find?_eq_some found
  have under : first.kind.isUnder parent = true := by simpa using List.find?_some found
  rcases traced.site_mem member with standing | stored
  · obtain ⟨_, u, there, _, kind⟩ := mem_sites.mp standing
    have inside := together u there (kind ▸ under)
    have same : u = first :=
      traced.records.unique distinct (List.mem_flatten.mpr ⟨text, known, inside⟩) member (kind ▸ places) places
    rwa [← same]
  · obtain ⟨_, u, there, _, kind⟩ := mem_sites.mp stored
    have apart := outside u there
    rw [kind, under] at apart
    cases apart

theorem find?_text (traced : Traced texts e live) (distinct : e.symbols.Distinct) (known : text ∈ texts)
    (found : texts.flatten.find? (·.kind.isUnder parent) = some first) (places : parent ∈ first.kind.places)
    (inside : first ∈ text) : text.find? (·.kind.isUnder parent) = some first := by
  obtain ⟨early, late, parts⟩ := List.append_of_mem known
  have flat : texts.flatten = early.flatten ++ (text ++ late.flatten) := by simp [parts]
  -- A label of the parent in an earlier text would be the one found, and placed twice.
  have before : early.flatten.find? (·.kind.isUnder parent) = none := by
    cases earlier : early.flatten.find? (·.kind.isUnder parent) with
    | none => rfl
    | some other =>
      rw [flat, List.find?_append, earlier] at found
      cases found
      have apart := traced.records.apart distinct
      rw [flat, List.pairwise_append] at apart
      have twice := apart.2.2 first (List.mem_of_find?_eq_some earlier) first (List.mem_append_left _ inside)
      exact absurd places (twice places)
  have under : first.kind.isUnder parent = true := by simpa using List.find?_some found
  have present : (text.find? (·.kind.isUnder parent)).isSome := List.find?_isSome.mpr ⟨first, inside, under⟩
  obtain ⟨other, here⟩ := Option.isSome_iff_exists.mp present
  rw [flat, List.find?_append, before, List.find?_append, here] at found
  exact here.trans found

-- In one text the order of reading is that of the program.
theorem find?_live (traced : Traced texts e live) (known : text ∈ texts)
    (outside : ∀ u ∈ e.macros.bodies, u.kind.isUnder parent = false)
    (together : ∀ u ∈ live, u.kind.isUnder parent = true → u ∈ text) :
    live.find? (·.kind.isUnder parent) = text.find? (·.kind.isUnder parent) := by
  let pick (u : Token) : Bool := u ∈ text ∧ u.kind.isUnder parent = true
  have kept : live.filter pick = text.filter pick := by
    apply traced.order text known
    · intro u picked
      exact (of_decide_eq_true picked).1
    · intro u there
      simp [pick, outside u there]
  have program : live.filter pick = live.filter (·.kind.isUnder parent) := by
    apply List.filter_congr
    intro u there
    by_cases under : u.kind.isUnder parent = true
    · simp [pick, under, together u there under]
    · simp [pick, under]
  have whole : text.filter pick = text.filter (·.kind.isUnder parent) := by
    apply List.filter_congr
    intro u there
    simp [pick, there]
  rw [← List.head?_filter, ← program, kept, whole, List.head?_filter]

end Expander.Traced

namespace Assembler

variable {a b : Assembler} {disk : Disk} {input : Input} {texts : List (List Token)} {e : Expander}

-- The names of one token have one address, and no other names have any.
theorem Complete.placed {symbols : SymbolTable} (complete : b.Complete symbols)
    (prepared : Prepared symbols b.tokens) :
    (∀ u ∈ b.tokens, ∀ name ∈ u.kind.places, Plain name → ∃ address, (name, address) ∈ b.namedAddresses) ∧
    ∀ name address, (name, address) ∈ b.namedAddresses → Plain name ∧ ∃ u ∈ b.tokens, name ∈ u.kind.places ∧
      ∀ other ∈ u.kind.places, Plain other → (other, address) ∈ b.namedAddresses := by
  obtain ⟨resolved, generated, _, same⟩ := complete.laid
  obtain ⟨next, _, laid, kept⟩ := Layout.generate_laid prepared generated
  let start : Layout := { loadBase := b.settings.loadBase, symbols }
  have listed (name : String) (address : Int) : (name, address) ∈ b.namedAddresses ↔ Plain name ∧
      Layout.Placed start.restart b.tokens name address := by
    rw [namedAddresses, same, (Layout.generate_addresses prepared generated).2, kept, laid.addresses]
  refine ⟨?_, ?_⟩
  · intro u member name places plain
    obtain ⟨address, placed⟩ := laid.exists_placed member places
    exact ⟨address, (listed name address).mpr ⟨plain, placed⟩⟩
  · intro name address member
    obtain ⟨plain, placed⟩ := (listed name address).mp member
    obtain ⟨u, there, places, together⟩ := placed.together
    refine ⟨plain, u, there, places, ?_⟩
    intro other too plainOther
    exact (listed other address).mpr ⟨plainOther, together other too⟩

-- What is known of a parent, from the label of it that was read first.
structure Parented (b : Assembler) (e : Expander) (texts : List (List Token)) (parent : String) (first : Token)
    (own : String) : Prop where
  earliest : texts.flatten.find? (·.kind.isUnder parent) = some first
  declares : ∃ implied, first.kind = .parentLabel own implied ∧
    (own = parent ∨ implied = some parent ∧ parentOf own = some parent)
  placed : (∃ address, (parent, address) ∈ b.namedAddresses) ∨
    first.site ∈ sites e.macros.bodies ∧ first.site ∉ sites b.tokens
  together : ∀ address, (parent, address) ∈ b.namedAddresses →
    first.site ∈ sites b.tokens ∧ (own, address) ∈ b.namedAddresses
  ordered : ∀ text ∈ texts, (∀ u ∈ e.macros.bodies, u.kind.isUnder parent = false) →
    (∀ u ∈ b.tokens, u.kind.isUnder parent = true → u ∈ text) →
    b.tokens.find? (·.kind.isUnder parent) = some first

-- The input is read first, and then the files in the order in which they are opened. Every parent that a label of the
-- program is written under was declared by the first of its labels to be read. It has an address, that of this label,
-- unless the label is in a body that is not invoked. If its labels stand in one text and outside bodies, then this is
-- the first of them in the program.
theorem parents_placed (ran : a.assembleInput disk input = .ok b) :
    ∃ e main others, input.expand ⟨a.settings, disk⟩ { journal := [.assembling input.name] } = .ok e ∧
      b.tokens = e.program ∧ ReadInTurn ⟨a.settings, disk⟩ input [.assembling input.name] e main others ∧
      Expander.Traced ((main :: others).map Reading.labels) e b.tokens ∧
      ∀ t ∈ b.tokens, ∀ label implied parent, t.kind = .parentLabel label implied → parentOf label = some parent →
        ∃ first own, b.Parented e ((main :: others).map Reading.labels) parent first own := by
  rw [assembleInput_eq] at ran
  obtain ⟨_, e, expanded, tokens, complete⟩ := (assembleWith_leaves a _ _).ok ran
  obtain ⟨main, others, read, traced⟩ := (Expander.traced_tracking _).input expanded
  obtain ⟨holds, orderly, settled⟩ := Input.expand_prepared expanded
  have prepared := settled.prepared holds orderly
  rw [← tokens] at prepared traced
  obtain ⟨given, apart⟩ := complete.placed prepared
  refine ⟨e, main, others, expanded, tokens, read, traced, ?_⟩
  intro t member label implied parent kind above
  have regular := prepared.orderly.regular t member
  rw [kind] at regular
  have plain := plain_parentOf regular.1 above
  obtain ⟨first, earliest, places, own, implies, shape, declares⟩ := traced.exists_first above member kind
  have distinct := holds.custody.distinct
  have inTexts := List.mem_of_find?_eq_some earliest
  have standing (u : Token) (there : u ∈ b.tokens) (again : parent ∈ u.kind.places) : u.site = first.site :=
    traced.site_eq distinct inTexts places there
      (TokenKind.isNamed_of_places (prepared.orderly.regular u there) plain again) again
  refine ⟨first, own, earliest, ⟨implies, shape, declares⟩, ?_, ?_, ?_⟩
  · by_cases stands : first.site ∈ sites b.tokens
    · obtain ⟨_, u, there, _, same⟩ := mem_sites.mp stands
      exact .inl (given u there parent (same ▸ places) plain)
    · exact .inr ⟨(traced.site_mem inTexts).resolve_left stands, stands⟩
  · intro address located
    obtain ⟨_, u, there, again, all⟩ := apart parent address located
    have same := standing u there again
    have kinds : u.kind = first.kind := congrArg Prod.snd same
    have ownPlain : Plain own := by
      have rules := prepared.orderly.regular u there
      rw [kinds, shape] at rules
      exact rules.1
    refine ⟨?_, all own ?_ ownPlain⟩
    · rw [← same]
      exact mem_sites.mpr ⟨by rw [kinds, shape]; rfl, u, there, rfl, rfl⟩
    · simp [kinds, shape, TokenKind.places]
  · intro text known outside together
    have inside := traced.first_mem_text distinct known earliest places outside together
    exact (traced.find?_live known outside together).trans (traced.find?_text distinct known earliest places inside)

-- The parent is placed where the body is copied, though another of its labels comes before.
theorem parent_placed_by_copy :
    let disk : Disk := ⟨[], [(["f"], .file "@q/a 00 @q/b".toUTF8.toList)]⟩
    let input : Input := .text "%m [ @p/a ] ~f @p/b 00 m".toList "<input>"
    ∃ b e main others first, ({} : Assembler).assembleInput disk input = .ok b ∧
      ReadInTurn ⟨{}, disk⟩ input [.assembling "<input>"] e main others ∧
      b.Parented e ((main :: others).map Reading.labels) "p" first "p/a" ∧
      b.namedAddresses = [("p", 258), ("p/a", 258), ("p/b", 257), ("q", 256), ("q/a", 256), ("q/b", 257)] := by
  intro disk input
  have made : (({} : Assembler).assembleInput disk input).toOption.map
      (fun b => (b.namedAddresses, (sites b.tokens).map (·.2))) =
        some ([("p", 258), ("p/a", 258), ("p/b", 257), ("q", 256), ("q/a", 256), ("q/b", 257)],
          [.parentLabel "q/a" (some "q"), .parentLabel "q/b" none, .parentLabel "p/b" none,
            .parentLabel "p/a" (some "p")]) := by decide +kernel
  obtain ⟨b, ran, outcome⟩ := Option.map_eq_some_iff.mp made
  obtain ⟨addresses, labels⟩ := Prod.mk.inj outcome
  obtain ⟨e, main, others, _, _, read, _, parents⟩ := parents_placed (eq_ok_of_toOption ran)
  have other : TokenKind.parentLabel "p/b" none ∈ (sites b.tokens).map (·.2) := by simp [labels]
  obtain ⟨⟨location, _⟩, site, rfl⟩ := List.mem_map.mp other
  obtain ⟨_, t, member, _, kind⟩ := mem_sites.mp site
  obtain ⟨first, own, parented⟩ := parents t member "p/b" none "p" kind (by decide)
  obtain ⟨implied, shape, _⟩ := parented.declares
  obtain ⟨stands, same⟩ := parented.together 258 (by simp [addresses])
  obtain rfl : own = "p/a" := by
    have listed := List.mem_map_of_mem (f := Prod.snd) stands
    rw [labels, Token.site, shape] at listed
    have either : own = "p" ∨ own = "p/a" := by simpa [addresses] using same
    rcases either with rfl | rfl
    · simp at listed
    · rfl
  exact ⟨b, e, main, others, first, eq_ok_of_toOption ran, read, parented, addresses⟩

-- Not every parent has an address, and it need not be that of the first of its labels in the program.
theorem parents_apart_from_first :
    (¬ ∀ disk input b, ({} : Assembler).assembleInput disk input = .ok b →
      ∀ t ∈ b.tokens, ∀ label implied parent, t.kind = .parentLabel label implied → parentOf label = some parent →
        ∃ address, (parent, address) ∈ b.namedAddresses) ∧
    ¬ ∀ disk input b, ({} : Assembler).assembleInput disk input = .ok b →
      ∀ parent, (∀ t ∈ b.tokens, ∀ implied, t.kind ≠ .parentLabel parent implied) →
        ∀ first own implied address, b.tokens.find? (·.kind.isUnder parent) = some first →
          first.kind = .parentLabel own implied → (parent, address) ∈ b.namedAddresses →
            (own, address) ∈ b.namedAddresses := by
  refine ⟨?_, ?_⟩
  · intro always
    let input : Input := .text "%m [ @p/a ] @p/b 00".toList "<input>"
    have made : (({} : Assembler).assembleInput ⟨[], []⟩ input).toOption.map
        (fun b => (b.namedAddresses, (sites b.tokens).map (·.2))) =
          some ([("p/b", 256)], [.parentLabel "p/b" none]) := by decide +kernel
    obtain ⟨b, ran, outcome⟩ := Option.map_eq_some_iff.mp made
    obtain ⟨addresses, labels⟩ := Prod.mk.inj outcome
    have only : TokenKind.parentLabel "p/b" none ∈ (sites b.tokens).map (·.2) := by simp [labels]
    obtain ⟨⟨location, _⟩, site, rfl⟩ := List.mem_map.mp only
    obtain ⟨_, t, member, _, kind⟩ := mem_sites.mp site
    obtain ⟨address, located⟩ := always _ input b (eq_ok_of_toOption ran) t member "p/b" none "p" kind (by decide)
    simp [addresses] at located
  · intro always
    let disk : Disk := ⟨[], [(["f"], .file "@p/a".toUTF8.toList)]⟩
    let input : Input := .text "~f 00 @p/b".toList "<input>"
    have made : (({} : Assembler).assembleInput disk input).toOption.map
        (fun b => (b.namedAddresses, (b.tokens.find? (·.kind.isUnder "p")).map (·.kind), (sites b.tokens).map (·.2))) =
          some ([("p", 257), ("p/b", 257), ("p/a", 256)], some (.parentLabel "p/a" none),
            [.parentLabel "p/a" none, .parentLabel "p/b" (some "p")]) := by decide +kernel
    obtain ⟨b, ran, outcome⟩ := Option.map_eq_some_iff.mp made
    obtain ⟨addresses, rest⟩ := Prod.mk.inj outcome
    obtain ⟨earliest, labels⟩ := Prod.mk.inj rest
    obtain ⟨first, found, kind⟩ := Option.map_eq_some_iff.mp earliest
    have apart : ∀ t ∈ b.tokens, ∀ implied, t.kind ≠ .parentLabel "p" implied := by
      intro t member implied kind
      have site : (t.location, t.kind) ∈ sites b.tokens := mem_sites.mpr ⟨by rw [kind]; rfl, t, member, rfl, rfl⟩
      have listed := List.mem_map_of_mem (f := Prod.snd) site
      simp [labels, kind] at listed
    have located := always disk input b (eq_ok_of_toOption ran) "p" apart first "p/a" none 257 found kind
      (by simp [addresses])
    simp [addresses] at located

end Assembler

end RuneAsm
