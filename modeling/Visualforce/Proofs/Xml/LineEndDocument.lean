import Visualforce.Proofs.Xml.LineEndProlog
import Visualforce.Proofs.Xml.ReadSection

/-! # Documents and line ends

A document and the document with its line ends unified have the same root element, or neither is
read.
-/
namespace Visualforce.Xml
open Digest

variable {opening opening' text rest rest' run : Text} {c : Char}

theorem sectionContent_cons (hclosing : ¬"]]>".toList <+: c :: rest)
    (hsingle : ¬(c = '\r' ∧ rest.head? = some '\n')) (hone : c :: rest ≠ "]".toList)
    (htwo : c :: rest ≠ "]]".toList) :
    sectionContent run (c :: rest) =
      if isLegal c then sectionContent (unified c :: run) rest else fail .badToken (c :: rest) := by
  rw [sectionContent, ite_return]
  · rintro more rfl rfl
    exact hclosing ⟨more, rfl⟩
  · rintro more rfl rfl
    exact hsingle ⟨rfl, rfl⟩
  · rintro rfl rfl
    exact hone rfl
  · rintro rfl rfl
    exact htwo rfl

/-- Sections end their lines alike, so what they hold is the same. -/
theorem agree_sectionContent (run text : Text) :
    Agree (Behind Eq) (sectionContent run text) (sectionContent run (unifyLineEnds text)) := by
  have hpass {c : Char} {run rest : Text} (hc : isLineEnd c)
      (hsingle : ¬(c = '\r' ∧ rest.head? = some '\n')) :
      sectionContent run (c :: rest) = sectionContent ('\n' :: run) rest := by
    have hne : c ≠ ']' := by
      rintro rfl
      cases hc
    rw [sectionContent_cons (fun ⟨more, hmore⟩ => hne (List.cons.inj hmore).1.symm) hsingle
      (fun h => hne (List.cons.inj h).1) (fun h => hne (List.cons.inj h).1),
      if_pos (isLegal_of_isLineEnd hc), unified_of_isLineEnd hc]
  have hfeed (run rest : Text) :
      sectionContent run ('\n' :: rest) = sectionContent ('\n' :: run) rest :=
    hpass rfl fun h => nomatch h.1
  induction text using lineEnd_induction generalizing run with
  | nil => exact agree_fail _ _ _ _
  | pair rest ih =>
    rw [unifyLineEnds_return_feed, sectionContent, hfeed]
    exact ih _
  | single rest hrest ih =>
    rw [unifyLineEnds_return hrest, hfeed, hpass rfl fun h => hrest h.2]
    exact ih _
  | feed rest ih =>
    rw [unifyLineEnds_feed, hfeed, hfeed]
    exact ih _
  | other c rest hc ih =>
    have hpiece : ∀ c ∈ "]]>".toList, isLineEnd c = false := by decide
    have hprefix : "]]>".toList <+: unifyLineEnds (c :: rest) ↔ "]]>".toList <+: c :: rest :=
      isPrefix_unifyLineEnds hpiece
    have hone : unifyLineEnds (c :: rest) = "]".toList ↔ c :: rest = "]".toList :=
      unifyLineEnds_eq_iff_of_forall (by decide)
    have htwo : unifyLineEnds (c :: rest) = "]]".toList ↔ c :: rest = "]]".toList :=
      unifyLineEnds_eq_iff_of_forall (by decide)
    have hsingle (rest : Text) : ¬(c = '\r' ∧ rest.head? = some '\n') := by
      rintro ⟨rfl, -⟩
      cases hc
    by_cases hclosing : "]]>".toList <+: c :: rest
    · obtain ⟨more, hmore⟩ := hclosing
      rw [← hmore, unifyLineEnds_append_left hpiece]
      exact .ok ⟨rfl, rfl⟩
    by_cases hends : c :: rest = "]".toList ∨ c :: rest = "]]".toList
    · rcases hends with hend | hend <;> rw [hend] <;> exact agree_fail _ _ _ _
    rw [not_or] at hends
    rw [unifyLineEnds_cons hc] at hprefix hone htwo ⊢
    rw [sectionContent_cons hclosing (hsingle _) hends.1 hends.2,
      sectionContent_cons (mt hprefix.mp hclosing) (hsingle _) (mt hone.mp hends.1)
        (mt htwo.mp hends.2)]
    split_ifs
    · exact ih _
    · exact agree_fail _ _ _ _

theorem agree_sectionStart (opening opening' text : Text) :
    Agree (fun rest rest' => rest' = unifyLineEnds rest) (sectionStart opening text)
      (sectionStart opening' (unifyLineEnds text)) := by
  have hpiece : ∀ c ∈ "CDATA[".toList, isLineEnd c = false := by decide
  by_cases h : "CDATA[".toList <+: text
  · obtain ⟨rest, rfl⟩ := h
    rw [unifyLineEnds_append_left hpiece, sectionStart_append, sectionStart_append]
    exact .ok rfl
  · have herror (opening : Text) {text : Text} (h : ¬"CDATA[".toList <+: text) :
        ∃ fault, sectionStart opening text = .error fault := by
      cases hstart : sectionStart opening text with
      | error fault => exact ⟨fault, rfl⟩
      | ok rest => exact absurd ⟨rest, (sectionStart_eq_ok hstart).symm⟩ h
    obtain ⟨fault, hfault⟩ := herror opening h
    obtain ⟨fault', hfault'⟩ := herror opening' (mt (isPrefix_unifyLineEnds hpiece).mp h)
    rw [hfault, hfault']
    exact .error _ _

theorem agree_endTag (written : WrittenName) (opening opening' text : Text) :
    Agree (fun rest rest' => rest' = unifyLineEnds rest) (endTag written opening text)
      (endTag written opening' (unifyLineEnds text)) := by
  rw [endTag, endTag, any_head?_unifyLineEnds (by decide),
    takeWhile_unifyLineEnds (by decide) (by decide), dropWhile_unifyLineEnds (by decide),
    skipSpace_unifyLineEnds]
  cases text.head?.any isNameStart with
  | false => exact agree_refuse _ _ _ _
  | true =>
    rw [if_neg (by decide), if_neg (by decide)]
    generalize skipSpace _ = left
    obtain ⟨rest, rfl, hother⟩ | ⟨hne, hne'⟩ := cons_or_not (c := '>') (by decide) left
    · simp only [hother]
      split_ifs
      · exact .ok rfl
      · exact agree_fail _ _ _ _
    · split
      · exact absurd rfl hne
      · split
        · rename_i heq
          exact absurd (congrArg List.head? heq) hne'
        · exact agree_refuse _ _ _ _

variable {entities : Entities} {fuel fuel' : Nat} {outer : List Frame} {frame : Frame}

theorem content_other (hopening : c ≠ '<') (hamp : c ≠ '&') (hclosing : ¬"]]>".toList <+: c :: rest)
    (hsingle : ¬(c = '\r' ∧ rest.head? = some '\n')) :
    content entities (fuel + 1) outer frame run (c :: rest) =
      if isLegal c then content entities fuel outer frame (unified c :: run) rest
      else fail .badToken (c :: rest) := by
  rw [content, ite_return]
  case x_13 =>
    rintro more rfl rfl
    exact hclosing ⟨more, rfl⟩
  case x_14 =>
    rintro more rfl rfl
    exact hsingle ⟨rfl, rfl⟩
  all_goals
    intros
    subst_vars
    first
      | exact hopening rfl
      | exact hamp rfl

theorem content_startTag (hslash : rest.head? ≠ some '/') (hbang : rest.head? ≠ some '!')
    (hquestion : rest.head? ≠ some '?') :
    content entities (fuel + 1) outer frame run ('<' :: rest) =
      startTag ('<' :: rest) rest >>= fun (tag, left) =>
        openElement entities frame.opened.scope ('<' :: rest) tag >>= fun opened =>
          if tag.closed then
            content entities fuel outer ((frame.flush run).add (Frame.mk opened []).close) [] left
          else content entities fuel (frame.flush run :: outer) ⟨opened, []⟩ [] left := by
  rw [content]
  all_goals
    rintro more rfl
    first
      | exact hslash rfl
      | exact hbang rfl
      | exact hquestion rfl

theorem content_exclamation (hdash : rest.head? ≠ some '-') (hbracket : rest.head? ≠ some '[') :
    content entities (fuel + 1) outer frame run ('<' :: '!' :: rest) =
      refuse ('<' :: '!' :: rest) rest := by
  rw [content]
  all_goals
    rintro more rfl
    first
      | exact hdash rfl
      | exact hbracket rfl

theorem content_dash (hdash : rest.head? ≠ some '-') :
    content entities (fuel + 1) outer frame run ('<' :: '!' :: '-' :: rest) =
      refuse ('<' :: '!' :: '-' :: rest) rest := by
  rw [content]
  rintro more rfl
  exact hdash rfl

/-- Content is read alike when as much fuel is left as there is text. -/
structure AgreesWith (entities : Entities) (fuel fuel' : Nat) : Prop where
  agree : ∀ {outer frame run text}, text.length < fuel → (unifyLineEnds text).length < fuel' →
    Agree (Behind Eq) (content entities fuel outer frame run text)
      (content entities fuel' outer frame run (unifyLineEnds text))

namespace AgreesWith

variable (h : AgreesWith entities fuel fuel')
include h

theorem endTag (hfuel : rest.length < fuel) (hfuel' : (unifyLineEnds rest).length < fuel') :
    Agree (Behind Eq) (content entities (fuel + 1) outer frame run ('<' :: '/' :: rest))
      (content entities (fuel' + 1) outer frame run ('<' :: '/' :: unifyLineEnds rest)) := by
  rw [content, content]
  refine (agree_endTag _ _ _ rest).bind ?_
  rintro left _ hread hread' rfl
  obtain ⟨passed, hpassed, -⟩ := endTag_eq_ok hread
  obtain ⟨passed', hpassed', -⟩ := endTag_eq_ok hread'
  have hle := congrArg List.length hpassed
  have hle' := congrArg List.length hpassed'
  rw [List.length_append] at hle hle'
  cases outer with
  | nil => exact .ok ⟨rfl, rfl⟩
  | cons parent outer => exact h.agree (by omega) (by omega)

theorem exclamation (hfuel : rest.length < fuel) (hfuel' : (unifyLineEnds rest).length < fuel') :
    Agree (Behind Eq) (content entities (fuel + 1) outer frame run ('<' :: '!' :: rest))
      (content entities (fuel' + 1) outer frame run ('<' :: '!' :: unifyLineEnds rest)) := by
  obtain ⟨more, rfl, hmore⟩ | ⟨hdash, hdash'⟩ := cons_or_not (c := '-') (by decide) rest
  · rw [hmore] at hfuel' ⊢
    obtain ⟨body, rfl, hbody⟩ | ⟨hne, hne'⟩ := cons_or_not (c := '-') (by decide) more
    · rw [hbody] at hfuel' ⊢
      rw [content, content]
      refine (agree_comment _ _ body).bind ?_
      rintro left _ hread hread' rfl
      obtain ⟨passed, hpassed, -⟩ := comment_eq_ok hread
      obtain ⟨passed', hpassed', -⟩ := comment_eq_ok hread'
      have hle := congrArg List.length hpassed
      have hle' := congrArg List.length hpassed'
      simp only [List.length_append, List.length_cons] at hle hle' hfuel hfuel'
      exact h.agree (by omega) (by omega)
    · rw [content_dash hne, content_dash hne']
      exact agree_refuse _ _ _ _
  obtain ⟨more, rfl, hmore⟩ | ⟨hbracket, hbracket'⟩ := cons_or_not (c := '[') (by decide) rest
  · rw [hmore] at hfuel' ⊢
    rw [content, content]
    refine (agree_sectionStart _ _ more).bind ?_
    rintro body _ hread hread' rfl
    refine (agree_sectionContent run body).bind ?_
    rintro ⟨held, left⟩ ⟨_, _⟩ hbody hbody' ⟨rfl, rfl⟩
    have hle := congrArg List.length (sectionStart_eq_ok hread)
    have hle' := congrArg List.length (sectionStart_eq_ok hread')
    obtain ⟨passed, hpassed, -⟩ := sectionContent_eq_ok hbody
    obtain ⟨passed', hpassed', -⟩ := sectionContent_eq_ok hbody'
    rw [hpassed] at hle
    rw [hpassed'] at hle'
    simp only [List.length_append, List.length_cons] at hle hle' hfuel hfuel'
    exact h.agree (by omega) (by omega)
  · rw [content_exclamation hdash hbracket, content_exclamation hdash' hbracket']
    exact agree_refuse _ _ _ _

theorem instruction (hfuel : rest.length < fuel) (hfuel' : (unifyLineEnds rest).length < fuel') :
    Agree (Behind Eq) (content entities (fuel + 1) outer frame run ('<' :: '?' :: rest))
      (content entities (fuel' + 1) outer frame run ('<' :: '?' :: unifyLineEnds rest)) := by
  rw [content, content]
  refine (agree_instruction _ _ rest).bind ?_
  rintro ⟨found, left⟩ ⟨_, _⟩ hread hread' ⟨rfl, rfl⟩
  obtain ⟨⟨passed, hpassed, -⟩, hfound⟩ := instruction_eq_ok hread
  obtain ⟨⟨passed', hpassed', -⟩, -⟩ := instruction_eq_ok hread'
  have hle := congrArg List.length hpassed
  have hle' := congrArg List.length hpassed'
  simp only [List.length_append] at hle hle'
  rcases hfound with rfl | ⟨body, rfl⟩
  · exact h.agree (by omega) (by omega)
  · exact agree_fail _ _ _ _

theorem startTag (hslash : rest.head? ≠ some '/') (hslash' : (unifyLineEnds rest).head? ≠ some '/')
    (hbang : rest.head? ≠ some '!') (hbang' : (unifyLineEnds rest).head? ≠ some '!')
    (hquestion : rest.head? ≠ some '?') (hquestion' : (unifyLineEnds rest).head? ≠ some '?')
    (hfuel : rest.length < fuel) (hfuel' : (unifyLineEnds rest).length < fuel') :
    Agree (Behind Eq) (content entities (fuel + 1) outer frame run ('<' :: rest))
      (content entities (fuel' + 1) outer frame run ('<' :: unifyLineEnds rest)) := by
  rw [content_startTag hslash hbang hquestion, content_startTag hslash' hbang' hquestion']
  refine (agree_startTag _ _ rest).bind ?_
  rintro ⟨tag, left⟩ ⟨tag', _⟩ hread hread' ⟨htag, rfl⟩
  refine (agree_openElement entities _ _ _ htag).bind ?_
  rintro opened _ - - rfl
  have hle := length_le_of_startTag hread
  have hle' := length_le_of_startTag hread'
  dsimp only at hle' htag ⊢
  rw [htag.closed]
  split_ifs
  · exact h.agree (by omega) (by omega)
  · exact h.agree (by omega) (by omega)

theorem reference (hfuel : rest.length < fuel) (hfuel' : (unifyLineEnds rest).length < fuel') :
    Agree (Behind Eq) (content entities (fuel + 1) outer frame run ('&' :: rest))
      (content entities (fuel' + 1) outer frame run ('&' :: unifyLineEnds rest)) := by
  rw [content, content]
  refine (agree_reference _ _ rest).bind ?_
  rintro ⟨ref, left⟩ ⟨_, _⟩ hread hread' ⟨rfl, rfl⟩
  obtain ⟨passed, hpassed, -⟩ := reference_eq_ok hread
  obtain ⟨passed', hpassed', -⟩ := reference_eq_ok hread'
  have hle := congrArg List.length hpassed
  have hle' := congrArg List.length hpassed'
  simp only [List.length_append] at hle hle'
  cases ref with
  | number character =>
    cases character with
    | none => exact agree_fail _ _ _ _
    | some c => exact h.agree (by omega) (by omega)
  | entity name =>
    dsimp only
    cases entities.lookup? name with
    | none =>
      dsimp only
      split_ifs <;> exact agree_fail _ _ _ _
    | some value => exact h.agree (by omega) (by omega)

theorem tag (hfuel : rest.length < fuel) (hfuel' : (unifyLineEnds rest).length < fuel') :
    Agree (Behind Eq) (content entities (fuel + 1) outer frame run ('<' :: rest))
      (content entities (fuel' + 1) outer frame run ('<' :: unifyLineEnds rest)) := by
  obtain ⟨more, rfl, hmore⟩ | ⟨hslash, hslash'⟩ := cons_or_not (c := '/') (by decide) rest
  · rw [hmore] at hfuel' ⊢
    exact h.endTag (Nat.lt_of_succ_lt hfuel) (Nat.lt_of_succ_lt hfuel')
  obtain ⟨more, rfl, hmore⟩ | ⟨hbang, hbang'⟩ := cons_or_not (c := '!') (by decide) rest
  · rw [hmore] at hfuel' ⊢
    exact h.exclamation (Nat.lt_of_succ_lt hfuel) (Nat.lt_of_succ_lt hfuel')
  obtain ⟨more, rfl, hmore⟩ | ⟨hquestion, hquestion'⟩ := cons_or_not (c := '?') (by decide) rest
  · rw [hmore] at hfuel' ⊢
    exact h.instruction (Nat.lt_of_succ_lt hfuel) (Nat.lt_of_succ_lt hfuel')
  · exact h.startTag hslash hslash' hbang hbang' hquestion hquestion' hfuel hfuel'

theorem step : AgreesWith entities (fuel + 1) (fuel' + 1) := by
  constructor
  intro outer frame run text hfuel hfuel'
  have hpass {c : Char} {rest : Text} {fuel : Nat} (hc : isLineEnd c)
      (hsingle : ¬(c = '\r' ∧ rest.head? = some '\n')) :
      content entities (fuel + 1) outer frame run (c :: rest) =
        content entities fuel outer frame ('\n' :: run) rest := by
    have hne {other : Char} (hother : isLineEnd other = false) : c ≠ other := by
      rintro rfl
      rw [hc] at hother
      cases hother
    rw [content_other (hne rfl) (hne rfl)
      (fun ⟨more, hmore⟩ => hne rfl (List.cons.inj hmore).1.symm) hsingle,
      if_pos (isLegal_of_isLineEnd hc), unified_of_isLineEnd hc]
  have hfeed {rest : Text} : ¬('\n' = '\r' ∧ rest.head? = some '\n') := fun h => nomatch h.1
  induction text using lineEnd_induction with
  | nil => exact agree_fail _ _ _ _
  | pair rest _ =>
    rw [unifyLineEnds_return_feed] at hfuel' ⊢
    rw [hpass rfl hfeed, content]
    simp only [List.length_cons] at hfuel hfuel'
    exact h.agree (by omega) (by omega)
  | single rest hrest _ =>
    rw [unifyLineEnds_return hrest] at hfuel' ⊢
    rw [hpass rfl hfeed, hpass rfl fun h => hrest h.2]
    exact h.agree (Nat.lt_of_succ_lt_succ hfuel) (Nat.lt_of_succ_lt_succ hfuel')
  | feed rest _ =>
    rw [unifyLineEnds_feed] at hfuel' ⊢
    rw [hpass rfl hfeed, hpass rfl hfeed]
    exact h.agree (Nat.lt_of_succ_lt_succ hfuel) (Nat.lt_of_succ_lt_succ hfuel')
  | other c rest hc _ =>
    have hprefix : "]]>".toList <+: unifyLineEnds (c :: rest) ↔ "]]>".toList <+: c :: rest :=
      isPrefix_unifyLineEnds (by decide)
    have hsingle (rest : Text) : ¬(c = '\r' ∧ rest.head? = some '\n') := by
      rintro ⟨rfl, -⟩
      cases hc
    rw [unifyLineEnds_cons hc] at hprefix hfuel' ⊢
    have hlt := Nat.lt_of_succ_lt_succ hfuel
    have hlt' := Nat.lt_of_succ_lt_succ hfuel'
    by_cases hopening : c = '<'
    · subst hopening
      exact h.tag hlt hlt'
    by_cases hamp : c = '&'
    · subst hamp
      exact h.reference hlt hlt'
    by_cases hclosing : "]]>".toList <+: c :: rest
    · obtain ⟨more', hmore'⟩ := hprefix.mpr hclosing
      obtain ⟨more, hmore⟩ := hclosing
      rw [← hmore, ← hmore']
      exact agree_fail _ _ _ _
    · rw [content_other hopening hamp hclosing (hsingle _),
        content_other hopening hamp (mt hprefix.mp hclosing) (hsingle _),
        unified_of_not_isLineEnd hc]
      split_ifs
      · exact h.agree hlt hlt'
      · exact agree_fail _ _ _ _

end AgreesWith

theorem agreesWith (entities : Entities) (fuel fuel' : Nat) : AgreesWith entities fuel fuel' := by
  induction fuel generalizing fuel' with
  | zero => exact ⟨fun hfuel => nomatch hfuel⟩
  | succ fuel ih =>
    cases fuel' with
    | zero => exact ⟨fun _ hfuel' => nomatch hfuel'⟩
    | succ fuel' => exact (ih fuel').step

theorem agree_rootElement (entities : Entities) (text : Text) :
    Agree (Behind Eq) (rootElement entities ('<' :: text))
      (rootElement entities ('<' :: unifyLineEnds text)) := by
  refine (agree_startTag _ _ text).bind ?_
  rintro ⟨tag, rest⟩ ⟨tag', _⟩ - - ⟨htag, rfl⟩
  refine (agree_openElement entities _ _ _ htag).bind ?_
  rintro opened _ - - rfl
  dsimp only at htag ⊢
  rw [htag.closed]
  split_ifs
  · exact .ok ⟨rfl, rfl⟩
  · exact (agreesWith _ _ _).agree (Nat.lt_succ_self _) (Nat.lt_succ_self _)

theorem withoutMark_unifyLineEnds (document : Text) :
    withoutMark (unifyLineEnds document) = unifyLineEnds (withoutMark document) := by
  have hpass {c : Char} {rest : Text} (hc : isLineEnd c) :
      withoutMark (c :: rest) = c :: rest := by
    rcases isLineEnd_iff.mp hc with rfl | rfl <;> rfl
  cases front document with
  | nil htext hother =>
    rw [hother, htext]
    rfl
  | lineEnd hc htext hother =>
    rw [hother, hpass rfl, ← hother, htext, hpass hc]
  | char hc htext hother =>
    rw [hother, htext, withoutMark, withoutMark]
    split_ifs
    · rfl
    · exact (unifyLineEnds_cons hc).symm

/-- A document is read as the same root element, however its lines end. -/
theorem agree_read (document : Text) :
    Agree Eq (read document) (read (unifyLineEnds document)) := by
  rw [read, read, withoutMark_unifyLineEnds]
  refine (agree_prolog _).bind ?_
  rintro ⟨setup, _⟩ ⟨_, _⟩ - - ⟨rfl, text, rfl, rfl⟩
  refine (agree_rootElement _ text).bind ?_
  rintro ⟨root, rest⟩ ⟨_, _⟩ - - ⟨rfl, rfl⟩
  refine (agree_epilog (Nat.lt_succ_self _) (Nat.lt_succ_self _)).bind ?_
  intros
  exact .ok rfl

end Visualforce.Xml
