import Mathlib
import RuneAsm.Proofs.Reuse
import RuneAsm.Proofs.Splicing.Layout

namespace RuneAsm

open Run

-- An inclusion stands for the text of its file. A program that includes a file and the program with that text written
-- out in its place give the same image and the same addresses of named labels.

namespace Expander

-- No body of a macro defines a macro or includes a file, and no label is written together with its parent.
structure Straight (e : Expander) : Prop where
  bodies : ∀ t ∈ e.macros.bodies, Quiet t
  labels : ∀ t ∈ e.program, ∀ label implied, t.kind = .parentLabel label implied → '/' ∉ label.toList

variable {ctx : Context} {file : String} {early name inner late : List Char} {first second third e e' : Expander}

-- Both texts gather the same words and the same bodies, whatever the parts use of each other.
theorem content_spliced {path : Path} {journal : Journal} (word : name ≠ [] ∧ ∀ c ∈ name, isBlank c = false)
    (found : findFile ctx (String.ofList name) file = some path)
    (stored : ctx.disk.readText path = .ok (Text.unifyNewlines inner))
    (readEarly : ({} : Expander).read ctx.settings early file = .ok first)
    (readInner : ({} : Expander).read ctx.settings inner file = .ok second)
    (readLate : ({} : Expander).read ctx.settings late file = .ok third)
    (noInclusion : ∀ t ∈ second.program, ∀ name, t.kind ≠ .inclusion name)
    (opensInner : OpensWithLabel second.program) (opensLate : OpensWithLabel third.program)
    (quiet : ∀ t ∈ e.macros.bodies, Quiet t) (quiet' : ∀ t ∈ e'.macros.bodies, Quiet t)
    (ran : processSource ctx (including early name late) file { journal } = .ok e)
    (ran' : processSource ctx (inserting early inner late) file { journal } = .ok e') :
    content e'.program = content e.program := by
  obtain ⟨lexed, words, bodies, read, gathers, unfolds⟩ := processSource_unfolds ran quiet
  obtain ⟨lexed', words', bodies', read', gathers', unfolds'⟩ := processSource_unfolds ran' quiet'
  rw [gist_included word readEarly readLate opensLate read] at gathers
  rw [gist_spliced readEarly readInner opensInner readLate opensLate read'] at gathers'
  have meaning : (gist second.program).map some = Lexeme.sayings none (Lexeme.solids (Text.unifyNewlines inner)) := by
    rw [Lexeme.solids_unifyNewlines (read_closed readInner), (read_gist readInner).1]
  have free : ∀ kind ∈ gist second.program, ∀ name, kind ≠ .inclusion name := by
    intro kind member name same
    obtain ⟨t, there, bare⟩ := List.mem_map.mp member
    exact noInclusion t (List.mem_of_mem_filter there) name ((TokenKind.bare_inclusion _).mp (bare.trans same))
  obtain ⟨rfl, rfl⟩ := (gathers.spliced found stored meaning free).deterministic gathers'
  exact unfolds.deterministic unfolds'

theorem prepared_of_process {source : List Char} {journal : Journal}
    (ran : processSource ctx source file { journal } = .ok e) : Prepared e.symbols e.program := by
  obtain ⟨holds, orderly, settled⟩ := (processSource_ends ctx source file (holds_fresh journal)).ok ran
  exact settled.prepared holds orderly

end Expander

namespace Assembler

variable {a b b' : Assembler}

-- Programs of the same content give the same code, and the same map from named labels to addresses.
theorem image_of_content {symbols symbols' : SymbolTable} (settings : b'.settings = b.settings)
    (prepared : Prepared symbols b.tokens) (prepared' : Prepared symbols' b'.tokens)
    (complete : b.Complete symbols) (complete' : b'.Complete symbols') (same : content b'.tokens = content b.tokens)
    (whole : ∀ t ∈ b.tokens, ∀ label implied, t.kind = .parentLabel label implied → '/' ∉ label.toList) :
    b'.code = b.code ∧ b'.namedAddresses.Perm b.namedAddresses ∧ (b.namedAddresses.map (·.1)).Nodup := by
  obtain ⟨last, generated, records, table⟩ := complete.laid
  obtain ⟨last', generated', records', table'⟩ := complete'.laid
  obtain ⟨emission, written, code⟩ := complete.written
  obtain ⟨emission', written', code'⟩ := complete'.written
  obtain ⟨_, custody⟩ := prepared.custody
  obtain ⟨σ, plain, alike⟩ := Layout.generate_alike { loadBase := b.settings.loadBase, symbols }
    { loadBase := b'.settings.loadBase, symbols := symbols' } prepared prepared' (congrArg (·.loadBase) settings) same whole
  obtain ⟨_, again, like⟩ := alike.ok generated
  rw [generated'] at again
  cases again
  have known := (Layout.generate_ends _ prepared.orderly prepared.spliced custody.labels).ok generated
  refine ⟨?_, ?_, ?_⟩
  · rw [records] at written
    rw [records', settings] at written'
    obtain ⟨_, emitted, equal⟩ := (Sink.emit_alike {} b.settings.loadBase like.records known.data).ok written
    rw [written'] at emitted
    cases emitted
    rw [code, code', equal]
  · unfold namedAddresses
    rw [table, table']
    exact Layout.addresses_perm prepared prepared' plain like.symbols generated generated'
  · unfold namedAddresses
    rw [table]
    exact SymbolTable.nodup_addresses (Layout.generate_addresses prepared generated).1

-- An inclusion is its text: when both texts assemble, the one that includes a file and the one that holds what is in
-- the file, they give the same code and the same map from named labels to addresses. The parts are read each on its
-- own, and may use the labels and the macros of one another in any direction.
theorem assembleSource_spliced (a : Assembler) (disk : Disk) (file : String) (early name inner late : List Char)
    {path : Path} {bytes : List UInt8} {first second third : Expander}
    (word : name ≠ [] ∧ ∀ c ∈ name, isBlank c = false)
    (found : Expander.findFile ⟨a.settings, disk⟩ (String.ofList name) file = some path)
    (stored : disk.read path = .ok bytes) (decoded : Text.Utf8.decode bytes = .ok inner)
    (readEarly : ({} : Expander).read a.settings early file = .ok first)
    (readInner : ({} : Expander).read a.settings inner file = .ok second)
    (readLate : ({} : Expander).read a.settings late file = .ok third)
    (noInclusion : ∀ t ∈ second.program, ∀ name, t.kind ≠ .inclusion name)
    (opensInner : Expander.OpensWithLabel second.program) (opensLate : Expander.OpensWithLabel third.program)
    (straight : ∀ source ∈ [Expander.including early name late, Expander.inserting early inner late], ∀ e,
      Expander.processSource ⟨a.settings, disk⟩ source file { journal := [.assembling file] } = .ok e → e.Straight)
    (ran : a.assembleSource disk (Expander.including early name late) file = .ok b)
    (ran' : a.assembleSource disk (Expander.inserting early inner late) file = .ok b') :
    b'.code = b.code ∧ b'.namedAddresses.Perm b.namedAddresses ∧ (b.namedAddresses.map (·.1)).Nodup := by
  obtain ⟨settings, e, expanded, tokens, complete⟩ := (assembleWith_leaves a file _).ok ran
  obtain ⟨settings', e', expanded', tokens', complete'⟩ := (assembleWith_leaves a file _).ok ran'
  have plainly := straight _ (by simp) e expanded
  have plainly' := straight _ (by simp) e' expanded'
  have text : disk.readText path = .ok (Text.unifyNewlines inner) := by
    unfold Disk.readText
    rw [stored]
    dsimp only
    rw [decoded]
  have same := Expander.content_spliced word found text readEarly readInner readLate noInclusion opensInner opensLate
    plainly.bodies plainly'.bodies expanded expanded'
  rw [← tokens, ← tokens'] at same
  refine image_of_content (settings'.trans settings.symm) ?_ ?_ complete complete' same ?_
  · exact tokens ▸ Expander.prepared_of_process expanded
  · exact tokens' ▸ Expander.prepared_of_process expanded'
  · exact tokens ▸ plainly.labels

-- Each part uses a label and a macro of another, and the file comes third in one table and second in the other.
theorem assembleSource_spliced_crossing :
    let early := "@a ;c n %m [ #01 ]".toList
    let inner := "@c m ;b %n [ ?\x7b LIT 05 m \x7d ]".toList
    let late := "@b n ;a ,c m".toList
    let disk : Disk := ⟨[], [(["f"], .file (inner.map (UInt8.ofNat ·.toNat)))]⟩
    ∃ b b', ({} : Assembler).assembleSource disk (Expander.including early "f".toList late) "<input>" = .ok b ∧
      ({} : Assembler).assembleSource disk (Expander.inserting early inner late) "<input>" = .ok b' ∧
      b.code.size = 29 ∧ b'.code = b.code ∧ b'.namedAddresses.Perm [("a", 256), ("b", 271), ("c", 266)] := by
  intro early inner late disk
  have lexed (source : List Char) (label : String) (read : (({} : Expander).read {} source "<input>").toOption.map
      (fun e => ((e.program.find? (!·.isTransparent)).map (·.kind), e.program.all (·.kind.name ≠ "INCLUDE"))) =
        some (some (.parentLabel label none), true)) :
      ∃ e, ({} : Expander).read {} source "<input>" = .ok e ∧ Expander.OpensWithLabel e.program ∧
        ∀ t ∈ e.program, ∀ name, t.kind ≠ .inclusion name := by
    obtain ⟨e, ran, found⟩ := Option.map_eq_some_iff.mp read
    obtain ⟨opens, free⟩ := Prod.mk.inj found
    obtain ⟨t, first, kind⟩ := Option.map_eq_some_iff.mp opens
    refine ⟨e, eq_ok_of_toOption ran, ⟨t, label, none, first, kind⟩, ?_⟩
    intro t member name kind
    have other := List.all_eq_true.mp free t member
    rw [kind] at other
    simp [TokenKind.name] at other
  have straight (source : List Char) (checked : (Expander.processSource ⟨{}, disk⟩ source "<input>"
      { journal := [.assembling "<input>"] }).toOption.all (fun e =>
        e.macros.bodies.all (fun t => t.kind.name ≠ "INCLUDE" ∧ t.kind.name ≠ "MACRO_DEFINITION") ∧
        e.program.all (fun t => t.kind.isNamed → ∀ label ∈ t.kind.label?, '/' ∉ label.toList)) = true) :
      ∀ e, Expander.processSource ⟨{}, disk⟩ source "<input>" { journal := [.assembling "<input>"] } = .ok e →
        e.Straight := by
    intro e ran
    rw [ran] at checked
    simp only [Except.toOption, Option.all_some, decide_eq_true_eq, List.all_eq_true] at checked
    refine ⟨?_, ?_⟩
    · intro t member
      obtain ⟨noInclusion, noDefinition⟩ := checked.1 t member
      refine ⟨?_, ?_⟩
      · intro name kind
        simp [kind, TokenKind.name] at noInclusion
      · intro name kind
        simp [kind, TokenKind.name] at noDefinition
    · intro t member label implied kind
      have free := checked.2 t member
      simpa [kind, TokenKind.isNamed, TokenKind.label?] using free
  obtain ⟨first, readEarly, _⟩ := lexed early "a" (by decide +kernel)
  obtain ⟨second, readInner, opensInner, noInclusion⟩ := lexed inner "c" (by decide +kernel)
  obtain ⟨third, readLate, opensLate, _⟩ := lexed late "b" (by decide +kernel)
  have made : (({} : Assembler).assembleSource disk (Expander.including early "f".toList late) "<input>").toOption.map
      (fun b => (b.code.size, b.namedAddresses)) = some (29, [("a", 256), ("b", 271), ("c", 266)]) := by decide +kernel
  have made' : (({} : Assembler).assembleSource disk (Expander.inserting early inner late) "<input>").toOption.isSome :=
    by decide +kernel
  obtain ⟨b, ran, found⟩ := Option.map_eq_some_iff.mp made
  obtain ⟨size, addresses⟩ := Prod.mk.inj found
  obtain ⟨b', ran'⟩ := Option.isSome_iff_exists.mp made'
  have word : "f".toList ≠ [] ∧ ∀ c ∈ "f".toList, isBlank c = false := ⟨by decide, List.forall_mem_singleton.mpr rfl⟩
  have file : Expander.findFile ⟨{}, disk⟩ (String.ofList "f".toList) "<input>" = some (.ofString "/f") := by decide +kernel
  have stored : (disk.read (.ofString "/f")).toOption = some (inner.map (UInt8.ofNat ·.toNat)) := by decide +kernel
  have decoded : (Text.Utf8.decode (inner.map (UInt8.ofNat ·.toNat))).toOption = some inner := by decide +kernel
  have both : ∀ source ∈ [Expander.including early "f".toList late, Expander.inserting early inner late], ∀ e,
      Expander.processSource ⟨{}, disk⟩ source "<input>" { journal := [.assembling "<input>"] } = .ok e → e.Straight := by
    simp only [List.mem_cons, List.not_mem_nil, or_false, forall_eq_or_imp, forall_eq]
    exact ⟨straight _ (by decide +kernel), straight _ (by decide +kernel)⟩
  obtain ⟨code, same, _⟩ := assembleSource_spliced {} disk "<input>" early "f".toList inner late word file
    (eq_ok_of_toOption stored) (eq_ok_of_toOption decoded) readEarly readInner readLate noInclusion opensInner opensLate
    both (eq_ok_of_toOption ran) (eq_ok_of_toOption ran')
  exact ⟨b, b', eq_ok_of_toOption ran, eq_ok_of_toOption ran', size, code, addresses ▸ same⟩

end Assembler

end RuneAsm
