import Mathlib
import RuneAsm.Proofs.Respacing.Reading

namespace RuneAsm

open Run

-- The words of a text are all that counts of it. They are what the reading of the text shows, they determine the
-- lexemes but for spacing, and between the labels that two texts with the same words give to their inline subroutines
-- there is a renaming.

namespace Reader

variable {r : Reader} {text : List Char}

def words (tokens : List Token) : List String := (unspaced tokens).map (·.text)

@[simp] theorem words_append (early late : List Token) : words (early ++ late) = words early ++ words late := by
  simp [words]

theorem words_solid {t : Token} (solid : t.kind.isSpacing = false) : words [t] = [t.text] := by
  simp [words, unspaced, solid]

theorem words_closedBy (opener : Token) (closer : Nat) (label : Option String) :
    words [opener.closedBy closer label] = words [opener] := by
  unfold Token.closedBy
  cases kind : opener.kind with
  | reference r => rw [words_solid rfl, words_solid (by rw [kind]; rfl)]
  | _ => simp [words, unspaced, kind, TokenKind.isSpacing]

theorem Taken.words {next : Reader} {spacing : Bool} (taken : Taken r text spacing next) :
    words next.tokens.toList = words r.tokens.toList ++ if spacing then [] else [String.ofList text] := by
  cases taken with
  | @pushed kind scope symbols journal _ _ _ _ _ _ sort =>
    rw [tokens_toList, tokens_toList, Array.toList_push, ← List.append_assoc, words_append]
    cases spacing with
    | true => simp [Reader.words, unspaced, token, sort]
    | false => rw [words_solid (by exact sort)]; rfl
  | @opened kind unclosed sort =>
    subst sort
    rw [tokens_toList, tokens_toList, outside_cons]
    have solid : kind.isSpacing = false := by
      rcases unclosed with rfl | ⟨form, _, rfl⟩ <;> rfl
    simp only [List.append_nil, words_append, List.append_assoc]
    rw [words_solid (by exact solid)]
    rfl
  | @closed kind frame outer symbols journal frames closes _ sort =>
    subst sort
    have solid : kind.isSpacing = false := by
      cases closes <;> rfl
    have closer : Reader.words [{ r.token text kind with partner := some frame.opener.id }] = [String.ofList text] :=
      words_solid (by exact solid)
    have inside := words_append [frame.opener.closedBy r.nextId kind.label?] r.latest.toList
    rw [words_closedBy, List.singleton_append] at inside
    rw [pair_tokens, tokens_toList, frames, outside_cons]
    simp only [words_append]
    rw [inside]
    simp only [List.append_assoc]
    exact congrArg _ (congrArg _ (congrArg _ (congrArg _ closer)))

theorem finished_of_take {next : Reader} {lexeme : Lexeme} (took : r.take lexeme = .ok next) : lexeme.Finished := by
  cases lexeme with
  | comment text closed =>
    cases closed with
    | true => rfl
    | false =>
      have failed : r.take (.comment text false) =
          (if r.checkComments then r.note (commentStyles text false) else r).malformed .unterminatedComment := rfl
      rw [failed] at took
      cases took
  | _ => trivial

-- What was read is what the text is made of, and no comment of it was left open.
theorem each_words {next : Reader} {lexemes : List Lexeme} (inScope : InScope r.scope)
    (proper : ∀ lexeme ∈ lexemes, lexeme.Proper) (ran : Run.each step r lexemes = .ok next) :
    words next.tokens.toList =
        words r.tokens.toList ++ (lexemes.filter (!·.isSpacing)).map (fun lexeme => String.ofList lexeme.text) ∧
      ∀ lexeme ∈ lexemes, lexeme.Finished := by
  induction lexemes generalizing r with
  | nil =>
    cases ran
    exact ⟨by simp, by simp⟩
  | cons lexeme rest ih =>
    obtain ⟨middle, stepped, later⟩ := andThen_eq_ok ran
    have here := proper lexeme (by simp)
    unfold step at stepped
    cases took : r.take lexeme with
    | error stop =>
      rw [took] at stepped
      cases stepped
    | ok taken =>
      rw [took] at stepped
      cases stepped
      have what := (take_taken inScope here).ok took
      obtain ⟨line, column, moved⟩ := foldl_advance lexeme.text taken
      beta_reduce at later
      rw [moved] at later
      obtain ⟨read, finished⟩ := ih (r := { taken with line, column }) (what.inScope inScope)
        (fun other member => proper other (by simp [member])) later
      refine ⟨?_, ?_⟩
      · have same : ({ taken with line, column } : Reader).tokens = taken.tokens := rfl
        rw [read, same, what.words]
        cases spacing : lexeme.isSpacing <;> simp [spacing]
      · intro other member
        rcases List.mem_cons.mp member with rfl | inRest
        · exact finished_of_take took
        · exact finished other inRest

theorem lexeme_eq {lexeme lexeme' : Lexeme} (proper : lexeme.Proper) (proper' : lexeme'.Proper)
    (solid : lexeme.isSpacing = false) (solid' : lexeme'.isSpacing = false)
    (same : String.ofList lexeme.text = String.ofList lexeme'.text) : lexeme = lexeme' := by
  have chars := String.ofList_injective same
  cases lexeme with
  | blank text => cases solid
  | comment text closed => cases solid
  | bracket c =>
    cases lexeme' with
    | blank text => cases solid'
    | comment text closed => cases solid'
    | bracket d =>
      cases chars
      rfl
    | word first rest =>
      cases chars
      have other : isBracket c = false := proper'.2.1
      rw [proper] at other
      cases other
  | word first rest =>
    cases lexeme' with
    | blank text => cases solid'
    | comment text closed => cases solid'
    | bracket d =>
      cases chars
      have other : isBracket first = false := proper.2.1
      rw [proper'] at other
      cases other
    | word first' rest' =>
      cases chars
      rfl

theorem lexemes_eq {lexemes lexemes' : List Lexeme}
    (proper : ∀ lexeme ∈ lexemes, lexeme.Proper ∧ lexeme.isSpacing = false)
    (proper' : ∀ lexeme ∈ lexemes', lexeme.Proper ∧ lexeme.isSpacing = false)
    (same : lexemes.map (fun lexeme => String.ofList lexeme.text) = lexemes'.map (fun lexeme => String.ofList lexeme.text)) :
    lexemes = lexemes' := by
  induction lexemes generalizing lexemes' with
  | nil => exact (List.map_eq_nil_iff.mp same.symm).symm
  | cons lexeme rest ih =>
    cases lexemes' with
    | nil => cases same
    | cons lexeme' rest' =>
      obtain ⟨first, later⟩ := List.cons.inj same
      obtain ⟨here, solid⟩ := proper lexeme (by simp)
      obtain ⟨here', solid'⟩ := proper' lexeme' (by simp)
      rw [lexeme_eq here here' solid solid' first,
        ih (fun other member => proper other (by simp [member])) (fun other member => proper' other (by simp [member])) later]

def Earlier (p q : Nat × Nat) : Prop := p.1 < q.1 ∨ p.1 = q.1 ∧ p.2 < q.2

theorem Earlier.trans {p q s : Nat × Nat} (first : Earlier p q) (second : Earlier q s) : Earlier p s := by
  unfold Earlier at *
  omega

theorem earlier_passed (p : Nat × Nat) (c : Char) : Earlier p (passed p c) := by
  unfold passed Earlier
  split
  · exact .inl (Nat.lt_succ_self _)
  · exact .inr ⟨rfl, Nat.lt_succ_self _⟩

theorem foldl_passed (text : List Char) (p : Nat × Nat) : text.foldl passed p = p ∨ Earlier p (text.foldl passed p) := by
  induction text generalizing p with
  | nil => exact .inl rfl
  | cons c rest ih =>
    rw [List.foldl_cons]
    rcases ih (passed p c) with same | later
    · exact .inr (by rw [same]; exact earlier_passed p c)
    · exact .inr ((earlier_passed p c).trans later)

theorem anonymousLabel_inj {file : String} {p q : Nat × Nat}
    (same : Token.anonymousLabel ⟨file, p.1, p.2⟩ = Token.anonymousLabel ⟨file, q.1, q.2⟩) : p = q := by
  have whole : (Nat.repr p.1).toList ++ ':' :: ((Nat.repr p.2).toList ++ ['>']) =
      (Nat.repr q.1).toList ++ ':' :: ((Nat.repr q.2).toList ++ ['>']) := by
    have chars := congrArg String.toList same
    simp only [Token.anonymousLabel, Location.text, toString, String.toList_append, List.append_assoc,
      List.append_cancel_left_eq] at chars
    exact chars
  have noColon (n : Nat) : ':' ∉ (Nat.repr n).toList := by
    rw [Nat.toList_repr]
    exact not_mem_digits n rfl
  obtain ⟨lines, _, columns⟩ :=
    (List.append_cons_inj_of_notMem (noColon p.1) (by simp [not_mem_digits p.2])).mp whole
  have line := Nat.repr_injective (String.toList_inj.mp lines)
  have column := Nat.repr_injective (String.toList_inj.mp (List.append_cancel_right columns))
  exact Prod.ext line column

theorem closing_anonymousLabel (location : Location) : Closing (Token.anonymousLabel location) := by
  refine ⟨anonymousLabel_not_plain location, "<lambda ".toList ++ location.text.toList, ?_⟩
  simp [Token.anonymousLabel, toString]

-- Later braces stand at later places, so all labels of a text are different.
theorem braces_cases (file : String) (p : Nat × Nat) (lexemes : List Lexeme) :
    (∀ label ∈ braces file p lexemes, ∃ q, (q = p ∨ Earlier p q) ∧ label = Token.anonymousLabel ⟨file, q.1, q.2⟩) ∧
      (braces file p lexemes).Nodup := by
  induction lexemes generalizing p with
  | nil => exact ⟨by simp [braces], by simp [braces]⟩
  | cons lexeme rest ih =>
    obtain ⟨later, distinct⟩ := ih (lexeme.text.foldl passed p)
    have onwards : ∀ label ∈ braces file (lexeme.text.foldl passed p) rest,
        ∃ q, (q = p ∨ Earlier p q) ∧ label = Token.anonymousLabel ⟨file, q.1, q.2⟩ := by
      intro label member
      obtain ⟨q, at', rfl⟩ := later label member
      refine ⟨q, ?_, rfl⟩
      rcases foldl_passed lexeme.text p with same | forward
      · rwa [same] at at'
      · rcases at' with rfl | further
        · exact .inr forward
        · exact .inr (forward.trans further)
    by_cases brace : lexeme = .bracket '\x7d'
    · subst brace
      simp only [braces, if_true, List.singleton_append]
      refine ⟨?_, List.nodup_cons.mpr ⟨?_, distinct⟩⟩
      · intro label member
        rcases List.mem_cons.mp member with rfl | inRest
        · exact ⟨p, .inl rfl, rfl⟩
        · exact onwards label inRest
      · intro again
        obtain ⟨q, at', same⟩ := later _ again
        obtain rfl := anonymousLabel_inj same
        have forward : Earlier p ((Lexeme.bracket '\x7d').text.foldl passed p) := earlier_passed p '\x7d'
        have past : Earlier p p := by
          rcases at' with equal | further
          · rwa [← equal] at forward
          · exact forward.trans further
        unfold Earlier at past
        omega
    · simp only [braces, brace, if_false, List.nil_append]
      exact ⟨onwards, distinct⟩

theorem length_braces (file : String) (p : Nat × Nat) (lexemes : List Lexeme) :
    (braces file p lexemes).length = (lexemes.filter (!·.isSpacing)).count (.bracket '\x7d') := by
  induction lexemes generalizing p with
  | nil => rfl
  | cons lexeme rest ih =>
    by_cases brace : lexeme = .bracket '\x7d'
    · subst brace
      simp [braces, ih, Lexeme.isSpacing]
    · cases spacing : lexeme.isSpacing <;> simp [braces, brace, ih, spacing]

-- The labels of one text can be turned into those of another with the same words, which leaves alone what does not start
-- like the label of a brace of the file.
theorem exists_labels_beside (file : String) (p p' : Nat × Nat) {lexemes lexemes' : List Lexeme}
    (same : lexemes.filter (!·.isSpacing) = lexemes'.filter (!·.isSpacing)) :
    ∃ σ, Renaming σ ∧ (braces file p lexemes).map σ = braces file p' lexemes' ∧
      ∀ x, (∀ line column, ¬ (Token.anonymousLabel ⟨file, line, column⟩).toList <+: x.toList) → σ x = x := by
  have lengths : (braces file p lexemes).length = (braces file p' lexemes').length := by
    rw [length_braces, length_braces, same]
  obtain ⟨labelled, distinct⟩ := braces_cases file p lexemes
  obtain ⟨labelled', distinct'⟩ := braces_cases file p' lexemes'
  let Labels (x : String) : Prop := ∃ line column, x = Token.anonymousLabel ⟨file, line, column⟩
  have movable : ∀ x, Labels x → Closing x := by
    rintro x ⟨line, column, rfl⟩
    exact closing_anonymousLabel _
  obtain ⟨σ, renames, maps, apart⟩ := exists_renaming movable ((braces file p lexemes).zip (braces file p' lexemes'))
    (by
      intro pair member
      obtain ⟨left, right⟩ := List.of_mem_zip member
      obtain ⟨q, _, here⟩ := labelled _ left
      obtain ⟨q', _, there⟩ := labelled' _ right
      exact ⟨⟨_, _, here⟩, ⟨_, _, there⟩⟩)
    (by rw [List.map_fst_zip (by omega)]; exact distinct) (by rw [List.map_snd_zip (by omega)]; exact distinct')
  refine ⟨σ, renames, ?_, ?_⟩
  · calc (braces file p lexemes).map σ
        = (((braces file p lexemes).zip (braces file p' lexemes')).map Prod.fst).map σ := by
          rw [List.map_fst_zip (by omega)]
      _ = ((braces file p lexemes).zip (braces file p' lexemes')).map Prod.snd := by
          rw [List.map_map]
          exact List.map_congr_left maps
      _ = braces file p' lexemes' := List.map_snd_zip (by omega)
  · intro x foreign
    apply apart
    rintro y ⟨line, column, rfl⟩
    exact foreign line column

theorem exists_labels (file : String) (p p' : Nat × Nat) {lexemes lexemes' : List Lexeme}
    (same : lexemes.filter (!·.isSpacing) = lexemes'.filter (!·.isSpacing)) :
    ∃ σ, Renaming σ ∧ (braces file p lexemes).map σ = braces file p' lexemes' := by
  obtain ⟨σ, renames, labels, _⟩ := exists_labels_beside file p p' same
  exact ⟨σ, renames, labels⟩

end Reader

namespace Expander

variable {source : List Char} {file : String} {settings : Settings} {e : Expander}

theorem read_words {journal : Journal} (read : ({ journal } : Expander).read settings source file = .ok e) :
    Reader.words e.program =
        ((Lexeme.all source).filter (!·.isSpacing)).map (fun lexeme => String.ofList lexeme.text) ∧
      ∀ lexeme ∈ Lexeme.all source, lexeme.Finished := by
  rw [read_eq] at read
  split at read
  · rename_i r ran
    cases read
    obtain ⟨walked, _⟩ := Reader.run_eq_ok ran
    have inScope : Reader.InScope (({ journal } : Expander).reader settings source file).scope := by
      intro parent entered
      cases entered
    exact Reader.each_words inScope (Lexeme.all_proper source) walked
  · cases read

end Expander

end RuneAsm
