import Visualforce.Proofs.Xml.AcceptedDocument
import Visualforce.Proofs.Xml.LineEndMark
import Visualforce.Xml.Prolog

/-! # The prolog and line ends

What stands before and after the root element is read alike from a text and from the text with its
line ends unified. The entities that a document type declares are the same, with the same texts.
-/
namespace Visualforce.Xml
open Digest

variable {opening opening' text middle middle' rest rest' taken : Text} {fuel fuel' : Nat}
variable {found : Mark}

theorem suffix_of_exclamation (h : exclamation opening text = .ok (found, rest)) :
    rest <:+ text := by
  rw [exclamation.eq_def] at h
  split at h
  · rw [bind_eq_ok] at h
    obtain ⟨left, hcomment, h⟩ := h
    cases h
    obtain ⟨body, hbody, -⟩ := comment_eq_ok hcomment
    exact ⟨'-' :: '-' :: (body ++ Markup.Cover.comment.closing), by simp [hbody]⟩
  · exact absurd h (refuse_ne_ok _ _ _)
  · cases h
    exact List.suffix_cons _ _
  · split at h
    · exact absurd h (refuse_ne_ok _ _ _)
    · exact absurd h (fail_ne_ok _ _ _)
    · rename_i hdrop _
      have hkeyword := List.dropWhile_suffix isKeywordChar (l := text)
      rw [hdrop] at hkeyword
      split_ifs at h
      · cases h
        exact hkeyword
      · split at h
        · exact absurd h (fail_ne_ok _ _ _)
        · split_ifs at h
          · exact absurd h (fail_ne_ok _ _ _)
          · cases h
            exact hkeyword
      · exact absurd h (fail_ne_ok _ _ _)

/-- A mark takes at least one character. -/
theorem suffix_of_mark (h : mark text = .ok (found, rest)) : rest <:+ text.tail := by
  rw [mark.eq_def] at h
  split at h
  · cases h
    exact List.nil_suffix
  · exact (suffix_of_exclamation h).trans (List.suffix_cons _ _)
  · obtain ⟨⟨body, rfl, -⟩, -⟩ := instruction_eq_ok h
    exact ⟨'?' :: (body ++ Markup.Cover.instruction.closing), by simp⟩
  · split at h
    · exact absurd h (fail_ne_ok _ _ _)
    · split_ifs at h
      · cases h
        exact List.suffix_refl _
      · exact absurd h (fail_ne_ok _ _ _)
  · split at h
    · exact absurd h (fail_ne_ok _ _ _)
    · cases h
      exact ⟨[']', '>'], rfl⟩
    · cases h
      exact List.suffix_refl _
  · split at h
    · cases h
      exact List.nil_suffix
    · split_ifs at h
      · cases h
        exact List.suffix_cons _ _
      · cases h
        exact List.suffix_refl _
      · exact absurd h (fail_ne_ok _ _ _)
  · cases h
    exact List.suffix_refl _
  · cases h
    exact List.suffix_refl _
  · exact (percent_eq_ok h).2
  · exact (pound_eq_ok h).2
  · split_ifs at h
    · cases h
      exact List.dropWhile_suffix _
    · exact (literal_eq_ok h).2
    · cases h
      exact List.suffix_refl _
    · exact (nameToken_eq_ok h).2
    · exact (nameToken_eq_ok h).2
    · exact absurd h (fail_ne_ok _ _ _)

theorem length_lt_of_mark (hne : text ≠ []) (h : mark text = .ok (found, rest)) :
    rest.length < text.length := by
  have hle := (suffix_of_mark h).length_le
  have hpos := List.length_pos_iff.mpr hne
  rw [List.length_tail] at hle
  omega

/-- Reading goes on in texts that differ in their line ends, each shorter than before. -/
structure Advances (text rest rest' : Text) : Prop where
  eq : rest' = unifyLineEnds rest
  shorter : rest.length < text.length
  shorter' : rest'.length < (unifyLineEnds text).length

theorem Advances.trans (h : Advances text middle middle')
    (hrest : Advances middle rest rest') : Advances text rest rest' where
  eq := hrest.eq
  shorter := hrest.shorter.trans h.shorter
  shorter' := hrest.shorter'.trans (h.eq ▸ h.shorter')

theorem agree_misplaced {α β : Type} {related : α → β → Prop} (found found' : Mark)
    (place place' : Text) : Agree related (found.misplaced place) (found'.misplaced place') := by
  rw [Mark.misplaced.eq_def, Mark.misplaced.eq_def]
  split <;> split <;> exact agree_fail _ _ _ _

theorem agree_nextMark (text : Text) :
    Agree (fun (first second : Mark × Text × Text) =>
      second.1 = first.1.unified ∧ Advances text first.2.2 second.2.2)
      (nextMark text) (nextMark (unifyLineEnds text)) := by
  rw [nextMark, nextMark, skipSpace_unifyLineEnds, isEmpty_unifyLineEnds]
  dsimp only
  split_ifs with hempty
  · exact agree_fail _ _ _ _
  · refine (agree_mark (skipSpace text)).bind ?_
    rintro ⟨found, rest⟩ ⟨_, _⟩ hread hread' ⟨rfl, rfl⟩
    have hne : skipSpace text ≠ [] := mt List.isEmpty_iff.mpr hempty
    have hlt := length_lt_of_mark hne hread
    have hlt' := length_lt_of_mark (mt unifyLineEnds_eq_nil_iff.mp hne) hread'
    have hle := (List.dropWhile_suffix isSpace (l := text)).length_le
    have hle' := (List.dropWhile_suffix isSpace (l := unifyLineEnds text)).length_le
    rw [← skipSpace] at hle hle'
    rw [skipSpace_unifyLineEnds] at hle'
    exact .ok ⟨rfl, rfl, hlt.trans_le hle, hlt'.trans_le hle'⟩

theorem agree_identifier (isPublic : Bool) (text : Text) :
    Agree (Advances text) (identifier isPublic text)
      (identifier isPublic (unifyLineEnds text)) := by
  refine (agree_nextMark text).bind ?_
  rintro ⟨found, place, rest⟩ ⟨_, place', rest'⟩ - - ⟨rfl, hrest⟩
  cases found with
  | literal content =>
    have hall : (unifyLineEnds content).all isPublicIdChar = content.all isPublicIdChar :=
      all_unifyLineEnds (by decide) content
    simp only [Mark.unified, hall]
    split_ifs
    · exact agree_fail _ _ _ _
    · exact .ok hrest
  | _ => exact agree_misplaced _ _ _ _

theorem skipDeclaration_nil (fuel : Nat) : ∃ fault, skipDeclaration fuel [] = .error fault := by
  cases fuel with
  | zero => exact ⟨_, rfl⟩
  | succ fuel => exact ⟨_, rfl⟩

theorem exists_fuel (hne : text ≠ []) (h : text.length ≤ fuel) : ∃ left, fuel = left + 1 := by
  have hpos := List.length_pos_iff.mpr hne
  exact ⟨fuel - 1, by omega⟩

theorem agree_skipDeclaration (hfuel : text.length ≤ fuel)
    (hfuel' : (unifyLineEnds text).length ≤ fuel') :
    Agree (Advances text) (skipDeclaration fuel text)
      (skipDeclaration fuel' (unifyLineEnds text)) := by
  induction fuel generalizing fuel' text with
  | zero =>
    obtain rfl := List.length_eq_zero_iff.mp (Nat.le_zero.mp hfuel)
    obtain ⟨fault', hfault'⟩ := skipDeclaration_nil fuel'
    rw [unifyLineEnds, hfault']
    exact .error _ _
  | succ fuel ih =>
    by_cases hne : text = []
    · obtain ⟨fault', hfault'⟩ := skipDeclaration_nil fuel'
      rw [hne, unifyLineEnds, hfault']
      exact .error _ _
    obtain ⟨fuel', rfl⟩ := exists_fuel (mt unifyLineEnds_eq_nil_iff.mp hne) hfuel'
    rw [skipDeclaration, skipDeclaration]
    refine (agree_nextMark text).bind ?_
    rintro ⟨found, place, rest⟩ ⟨_, place', rest'⟩ - - ⟨rfl, hrest⟩
    have hnext : Agree (Advances text) (skipDeclaration fuel rest)
        (skipDeclaration fuel' rest') := by
      have hlt := hrest.shorter
      have hlt' := hrest.shorter'
      dsimp only at hrest hlt hlt'
      rw [hrest.eq] at hlt' ⊢
      exact (ih (by omega) (by omega)).mono hrest.trans
    cases found with
    | close => exact .ok hrest
    | element => exact agree_fail _ _ _ _
    | declaration keyword => exact agree_fail _ _ _ _
    | xmlDeclaration body => exact agree_fail _ _ _ _
    | _ => exact hnext

structure SameSetting (found other : Setting) : Prop where
  name : found.name = other.name
  value : found.value = other.value

theorem agree_setting (text : Text) :
    Agree (Behind (Option.Rel SameSetting)) (setting text) (setting (unifyLineEnds text)) := by
  rw [setting, setting, isEmpty_unifyLineEnds, any_head?_unifyLineEnds (by decide),
    skipSpace_unifyLineEnds]
  dsimp only
  rw [isEmpty_unifyLineEnds, takeWhile_unifyLineEnds (by decide) (by decide),
    dropWhile_unifyLineEnds (by decide)]
  split_ifs
  · exact .ok ⟨.none, rfl⟩
  · exact .error _ _
  · exact .ok ⟨.none, rfl⟩
  · -- a value without a name
    split <;> split <;> exact .error _ _
  generalize (skipSpace text).dropWhile (!isSettingNameEnd ·) = ended
  rw [skipSpace_unifyLineEnds]
  obtain ⟨after, hafter, hother⟩ | ⟨hne, hne'⟩ :=
    cons_or_not (c := '=') (by decide) (skipSpace ended)
  · simp only [hafter, unifyLineEnds_cons (c := '=') (by decide)]
    obtain ⟨htext, hother⟩ | ⟨quote, place, hquote, htext, hother⟩ := front_skipSpace after
    · simp only [htext, hother]
      exact .error _ _
    · simp only [htext, hother]
      rw [takeWhile_unifyLineEnds (by decide) (by decide), dropWhile_unifyLineEnds (by decide)]
      split_ifs
      · cases front (place.dropWhile isSettingChar) with
        | nil htext hother =>
          rw [hother, htext]
          exact .error _ _
        | @lineEnd c _ _ hc htext hother =>
          have hend : (c == quote) = false :=
            beq_false_of_ne fun h => by rw [h, hquote] at hc; cases hc
          rw [hother, htext]
          simp only [hend, (beq_lineEnd hquote).2]
          exact .error _ _
        | @char c rest hc htext hother =>
          rw [hother, htext]
          dsimp only
          split_ifs
          · exact .ok ⟨.some ⟨rfl, rfl⟩, rfl⟩
          · exact .error _ _
      · exact .error _ _
  · split
    · rename_i heq
      exact absurd (congrArg List.head? heq) hne
    · split
      · rename_i heq
        exact absurd (congrArg List.head? heq) hne'
      · exact .error _ _

theorem agree_standalone {last last' : Setting} (h : SameSetting last last') (text : Text) :
    Agree Eq (declaredStandalone.standalone last text)
      (declaredStandalone.standalone last' (unifyLineEnds text)) := by
  rw [declaredStandalone.standalone, declaredStandalone.standalone, h.name, h.value,
    skipSpace_unifyLineEnds, isEmpty_unifyLineEnds]
  split_ifs
  · exact .error _ _
  · exact .error _ _
  · exact .ok rfl
  · exact .error _ _

theorem agree_declaredStandalone (body : Text) :
    Agree Eq (declaredStandalone body) (declaredStandalone (unifyLineEnds body)) := by
  rw [declaredStandalone, declaredStandalone]
  refine (agree_setting body).bind ?_
  rintro ⟨_, rest⟩ ⟨_, _⟩ - - ⟨hversion | _, rfl⟩
  swap
  · exact .error _ _
  dsimp only
  rw [hversion.name]
  split_ifs
  · exact .error _ _
  refine (agree_setting rest).bind ?_
  rintro ⟨_, rest⟩ ⟨_, _⟩ - - ⟨hsecond | _, rfl⟩
  swap
  · exact .ok rfl
  dsimp only
  rw [hsecond.name, hsecond.value]
  split_ifs
  · exact .error _ _
  · refine (agree_setting rest).bind ?_
    rintro ⟨_, rest⟩ ⟨_, _⟩ - - ⟨hthird | _, rfl⟩
    · exact agree_standalone hthird rest
    · exact .ok rfl
  · exact agree_standalone hsecond rest

theorem ite_return (c : Char) : (if c == '\r' then '\n' else c) = unified c := by
  rw [unified, isLineEnd]
  by_cases hfeed : c = '\n'
  · rw [hfeed]
    rfl
  · simp [hfeed]

theorem entityText_char {declared : List (Text × Text)} {c : Char} (hamp : c ≠ '&')
    (hsingle : ¬(c = '\r' ∧ rest.head? = some '\n')) :
    entityText declared (fuel + 1) (c :: rest) =
      (entityText declared fuel rest).map (unified c :: ·) := by
  rw [entityText, ite_return]
  · rintro rfl
    exact hamp rfl
  · rintro more rfl rfl
    exact hsingle ⟨rfl, rfl⟩

theorem entityText_unifyLineEnds (declared : List (Text × Text)) (hfuel : text.length < fuel)
    (hfuel' : (unifyLineEnds text).length < fuel') :
    entityText declared fuel' (unifyLineEnds text) = entityText declared fuel text := by
  induction fuel generalizing fuel' text with
  | zero => cases hfuel
  | succ fuel ih =>
    obtain ⟨fuel', rfl⟩ : ∃ k, fuel' = k + 1 := ⟨fuel' - 1, by omega⟩
    have hfeed (rest : Text) : ¬('\n' = '\r' ∧ rest.head? = some '\n') := fun h => nomatch h.1
    induction text using lineEnd_induction with
    | nil => rfl
    | pair rest _ =>
      rw [unifyLineEnds_return_feed] at hfuel' ⊢
      simp only [List.length_cons] at hfuel hfuel'
      rw [entityText_char (by decide) (hfeed _), entityText, ih (by omega) (by omega)]
      rfl
    | single rest hrest _ =>
      rw [unifyLineEnds_return hrest] at hfuel' ⊢
      rw [entityText_char (by decide) (hfeed _), entityText_char (by decide) fun h => hrest h.2,
        ih (Nat.lt_of_succ_lt_succ hfuel) (Nat.lt_of_succ_lt_succ hfuel')]
      rfl
    | feed rest _ =>
      rw [unifyLineEnds_feed] at hfuel' ⊢
      rw [entityText_char (by decide) (hfeed _), entityText_char (by decide) (hfeed _),
        ih (Nat.lt_of_succ_lt_succ hfuel) (Nat.lt_of_succ_lt_succ hfuel')]
    | other c rest hc _ =>
      rw [unifyLineEnds_cons hc] at hfuel' ⊢
      have hreturn (rest : Text) : ¬(c = '\r' ∧ rest.head? = some '\n') := by
        rintro ⟨rfl, -⟩
        cases hc
      by_cases hamp : c = '&'
      · subst hamp
        rw [entityText, entityText]
        have hread := agree_reference rest (unifyLineEnds rest) rest
        generalize hfirst : reference rest rest = first at hread
        generalize hsecond : reference (unifyLineEnds rest) (unifyLineEnds rest) = second at hread
        cases hread with
        | error fault fault' => rfl
        | @ok a b h =>
          obtain ⟨ref, after⟩ := a
          obtain ⟨_, _⟩ := b
          obtain ⟨rfl, rfl⟩ := h
          obtain ⟨passed, hpassed, -⟩ := reference_eq_ok hfirst
          obtain ⟨passed', hpassed', -⟩ := reference_eq_ok hsecond
          have hle := congrArg List.length hpassed
          have hle' := congrArg List.length hpassed'
          simp only [List.length_append, List.length_cons] at hle hle' hfuel hfuel'
          have hafter : entityText declared fuel' (unifyLineEnds after) =
              entityText declared fuel after := ih (by omega) (by omega)
          cases ref with
          | number character =>
            cases character with
            | none => rfl
            | some c => exact congrArg (Option.map (c :: ·)) hafter
          | entity name =>
            dsimp only
            rw [hafter]
      · rw [entityText_char hamp (hreturn _), entityText_char hamp (hreturn _),
          ih (Nat.lt_of_succ_lt_succ hfuel) (Nat.lt_of_succ_lt_succ hfuel')]

theorem declareEntity_unifyLineEnds (declared : List (Text × Text)) (name value : Text) :
    declareEntity declared name (unifyLineEnds value) = declareEntity declared name value := by
  rw [declareEntity, declareEntity,
    entityText_unifyLineEnds declared (Nat.lt_succ_self _) (Nat.lt_succ_self _)]

/-- The same value, and reading goes on further behind in both texts. -/
def ReadAlike {α : Type} (text : Text) (first second : α × Text) : Prop :=
  second.1 = first.1 ∧ Advances text first.2 second.2

theorem ReadAlike.trans {α : Type} {first second : α × Text} (h : Advances text middle middle')
    (hread : ReadAlike middle first second) : ReadAlike text first second :=
  ⟨hread.1, h.trans hread.2⟩

/-- What follows a declaration is read alike, whatever is returned with it. -/
theorem agree_skipped {α : Type} (value : α) (h : Advances text rest rest') :
    Agree (ReadAlike text)
      (skipDeclaration rest.length rest >>= fun left => pure (value, left))
      (skipDeclaration rest'.length rest' >>= fun left => pure (value, left)) := by
  obtain ⟨rfl, -, -⟩ := id h
  refine (agree_skipDeclaration (Nat.le_refl _) (Nat.le_refl _)).bind ?_
  intro left left' _ _ hleft
  exact .ok ⟨rfl, h.trans hleft⟩

theorem agree_entityDeclaration (declared : List (Text × Text)) (text : Text) :
    Agree (ReadAlike text) (entityDeclaration declared text)
      (entityDeclaration declared (unifyLineEnds text)) := by
  refine (agree_nextMark text).bind ?_
  rintro ⟨found, place, rest⟩ ⟨_, place', rest'⟩ - - ⟨rfl, hrest⟩
  cases found with
  | name name =>
    obtain ⟨rfl, -, -⟩ := id hrest
    refine (agree_nextMark rest).bind ?_
    rintro ⟨found, place, after⟩ ⟨_, place', after'⟩ - - ⟨rfl, hafter⟩
    cases found with
    | name name => exact agree_skipped declared (hrest.trans hafter)
    | literal value =>
      obtain ⟨rfl, -, -⟩ := id hafter
      refine (agree_nextMark after).bind ?_
      rintro ⟨found, place, behind⟩ ⟨_, place', behind'⟩ - - ⟨rfl, hbehind⟩
      cases found with
      | close => exact .ok ⟨declareEntity_unifyLineEnds _ _ _, hrest.trans (hafter.trans hbehind)⟩
      | _ => exact agree_misplaced _ _ _ _
    | _ => exact agree_misplaced _ _ _ _
  | other => exact agree_skipped declared hrest
  | _ => exact agree_misplaced _ _ _ _

theorem agree_internalSubset {external : Bool} {declared : List (Text × Text)}
    (hfuel : text.length < fuel) (hfuel' : (unifyLineEnds text).length < fuel') :
    Agree (ReadAlike text) (internalSubset external fuel declared text)
      (internalSubset external fuel' declared (unifyLineEnds text)) := by
  induction fuel generalizing fuel' external declared text with
  | zero => cases hfuel
  | succ fuel ih =>
    obtain ⟨fuel', rfl⟩ : ∃ k, fuel' = k + 1 := ⟨fuel' - 1, by omega⟩
    have hnext {external : Bool} {declared : List (Text × Text)} {rest rest' : Text}
        (h : Advances text rest rest') :
        Agree (ReadAlike text) (internalSubset external fuel declared rest)
          (internalSubset external fuel' declared rest') := by
      have hlt := h.shorter
      have hlt' := h.shorter'
      rw [h.eq] at hlt' ⊢
      exact (ih (by omega) (by omega)).mono (ReadAlike.trans h)
    rw [internalSubset, internalSubset]
    refine (agree_nextMark text).bind ?_
    rintro ⟨found, place, rest⟩ ⟨_, place', rest'⟩ - - ⟨rfl, hrest⟩
    cases found with
    | comment => exact hnext hrest
    | instruction => exact hnext hrest
    | parameter => exact hnext hrest
    | declaration keyword =>
      obtain ⟨rfl, -, -⟩ := id hrest
      simp only [Mark.unified]
      split_ifs
      · refine (agree_entityDeclaration declared rest).bind ?_
        rintro ⟨declared, after⟩ ⟨_, after'⟩ - - ⟨rfl, hafter⟩
        exact hnext (hrest.trans hafter)
      · refine (agree_skipDeclaration (Nat.le_refl _) (Nat.le_refl _)).bind ?_
        intro after after' _ _ hafter
        exact hnext (hrest.trans hafter)
      · exact agree_fail _ _ _ _
    | closeBracket =>
      obtain ⟨rfl, -, -⟩ := id hrest
      refine (agree_nextMark rest).bind ?_
      rintro ⟨found, place, after⟩ ⟨_, place', after'⟩ - - ⟨rfl, hafter⟩
      cases found with
      | close => exact .ok ⟨rfl, hrest.trans hafter⟩
      | _ => exact agree_misplaced _ _ _ _
    | _ => exact agree_misplaced _ _ _ _

theorem agree_doctypeEnd (external : Bool) (text : Text) :
    Agree (ReadAlike text) (doctypeEnd external text)
      (doctypeEnd external (unifyLineEnds text)) := by
  refine (agree_nextMark text).bind ?_
  rintro ⟨found, place, rest⟩ ⟨_, place', rest'⟩ - - ⟨rfl, hrest⟩
  cases found with
  | openBracket =>
    obtain ⟨rfl, -, -⟩ := id hrest
    exact (agree_internalSubset (Nat.lt_succ_self _) (Nat.lt_succ_self _)).mono
      (ReadAlike.trans hrest)
  | close => exact .ok ⟨rfl, hrest⟩
  | _ => exact agree_misplaced _ _ _ _

theorem agree_doctype (text : Text) :
    Agree (ReadAlike text) (doctype text) (doctype (unifyLineEnds text)) := by
  have hend {external : Bool} {rest rest' : Text} (h : Advances text rest rest') :
      Agree (ReadAlike text) (doctypeEnd external rest) (doctypeEnd external rest') := by
    obtain ⟨rfl, -, -⟩ := id h
    exact (agree_doctypeEnd external rest).mono (ReadAlike.trans h)
  refine (agree_nextMark text).bind ?_
  rintro ⟨found, place, rest⟩ ⟨_, place', rest'⟩ - - ⟨rfl, hrest⟩
  obtain ⟨rfl, -, -⟩ := id hrest
  cases found with
  | name name =>
    refine (agree_nextMark rest).bind ?_
    rintro ⟨found, place, after⟩ ⟨_, place', after'⟩ - - ⟨rfl, hafter⟩
    obtain ⟨rfl, -, -⟩ := id hafter
    cases found with
    | name keyword =>
      simp only [Mark.unified]
      split_ifs
      · refine (agree_identifier false after).bind ?_
        intro left left' _ _ hleft
        exact hend (hrest.trans (hafter.trans hleft))
      · refine (agree_identifier true after).bind ?_
        intro left left' _ _ hleft
        obtain ⟨rfl, -, -⟩ := id hleft
        refine (agree_identifier false left).bind ?_
        intro final final' _ _ hfinal
        exact hend (hrest.trans (hafter.trans (hleft.trans hfinal)))
      · exact agree_fail _ _ _ _
    | _ => exact hend hrest
  | _ => exact agree_misplaced _ _ _ _

/-- The root element begins at the same mark in both texts. -/
def AtRoot (first second : Setup × Text) : Prop :=
  second.1 = first.1 ∧ ∃ more, first.2 = '<' :: more ∧ second.2 = '<' :: unifyLineEnds more

theorem exists_of_mark_element (h : mark text = .ok (.element, rest)) :
    ∃ more, text = '<' :: more := by
  obtain hinner | ⟨hpassed, -⟩ | ⟨-, hmore⟩ | ⟨keyword, hfound, -⟩ := mark_eq_ok h
  · exact absurd rfl hinner.2.1
  · cases hpassed
  · exact hmore
  · cases hfound

theorem agree_prologFrom {isFirst : Bool} {setup : Setup} (hfuel : text.length < fuel)
    (hfuel' : (unifyLineEnds text).length < fuel') :
    Agree AtRoot (prologFrom fuel isFirst setup text)
      (prologFrom fuel' isFirst setup (unifyLineEnds text)) := by
  induction fuel generalizing fuel' isFirst setup text with
  | zero => cases hfuel
  | succ fuel ih =>
    obtain ⟨fuel', rfl⟩ : ∃ k, fuel' = k + 1 := ⟨fuel' - 1, by omega⟩
    by_cases hne : text = []
    · rw [hne]
      exact agree_fail _ _ _ _
    have hne' := mt unifyLineEnds_eq_nil_iff.mp hne
    rw [prologFrom.eq_3 _ _ _ _ hne, prologFrom.eq_3 _ _ _ _ hne']
    refine (agree_mark text).bind ?_
    rintro ⟨found, rest⟩ ⟨_, _⟩ hread hread' ⟨rfl, rfl⟩
    have hlt := length_lt_of_mark hne hread
    have hlt' := length_lt_of_mark hne' hread'
    have hnext {setup : Setup} : Agree AtRoot (prologFrom fuel false setup rest)
        (prologFrom fuel' false setup (unifyLineEnds rest)) := by
      dsimp only at hlt'
      exact ih (by omega) (by omega)
    cases found with
    | space => exact hnext
    | comment => exact hnext
    | instruction => exact hnext
    | element =>
      obtain ⟨more, rfl⟩ := exists_of_mark_element hread
      exact .ok ⟨rfl, more, rfl, unifyLineEnds_cons (by decide)⟩
    | xmlDeclaration body =>
      simp only [Mark.unified]
      split_ifs
      · have hbody := agree_declaredStandalone body
        generalize declaredStandalone body = declared at hbody
        generalize declaredStandalone (unifyLineEnds body) = declared' at hbody
        cases hbody with
        | error place place' => exact agree_fail _ _ _ _
        | ok h =>
          rw [h]
          exact hnext
      · exact agree_misplaced _ _ _ _
    | declaration keyword =>
      simp only [Mark.unified]
      split_ifs
      · refine (agree_doctype rest).bind ?_
        rintro ⟨settings, after⟩ ⟨settings', after'⟩ - - ⟨hsettings, hafter⟩
        obtain ⟨heq, hshort, hshort'⟩ := hafter
        dsimp only at hlt' hsettings heq hshort hshort' ⊢
        subst hsettings heq
        exact ih (by omega) (by omega)
      · exact agree_fail _ _ _ _
    | _ => exact agree_misplaced _ _ _ _

theorem agree_prolog (text : Text) :
    Agree AtRoot (prolog text) (prolog (unifyLineEnds text)) :=
  agree_prologFrom (Nat.lt_succ_self _) (Nat.lt_succ_self _)

theorem agree_epilog (hfuel : text.length < fuel) (hfuel' : (unifyLineEnds text).length < fuel') :
    Agree Eq (epilog fuel text) (epilog fuel' (unifyLineEnds text)) := by
  induction fuel generalizing fuel' text with
  | zero => cases hfuel
  | succ fuel ih =>
    obtain ⟨fuel', rfl⟩ : ∃ k, fuel' = k + 1 := ⟨fuel' - 1, by omega⟩
    by_cases hne : text = []
    · rw [hne]
      exact .ok rfl
    have hne' := mt unifyLineEnds_eq_nil_iff.mp hne
    rw [epilog.eq_3 _ _ hne, epilog.eq_3 _ _ hne']
    refine (agree_mark text).bind ?_
    rintro ⟨found, rest⟩ ⟨_, _⟩ hread hread' ⟨rfl, rfl⟩
    have hlt := length_lt_of_mark hne hread
    have hlt' := length_lt_of_mark hne' hread'
    have hnext : Agree Eq (epilog fuel rest) (epilog fuel' (unifyLineEnds rest)) := by
      dsimp only at hlt'
      exact ih (by omega) (by omega)
    cases found with
    | space => exact hnext
    | comment => exact hnext
    | instruction => exact hnext
    | _ => exact agree_fail _ _ _ _

end Visualforce.Xml
