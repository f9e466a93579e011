import Visualforce.Proofs.Xml.LineEndTag
import Visualforce.Xml.Mark

/-! # Marks and line ends

The marks outside the root element are read alike from a text and from the text with its line ends
unified. What a mark holds is unified as well.
-/
namespace Visualforce.Xml
open Digest

variable {opening opening' text rest taken taken' : Text} {c : Char}

/-- The mark with what it holds unified. -/
def Mark.unified : Mark → Mark
  | .xmlDeclaration body => .xmlDeclaration (unifyLineEnds body)
  | .literal content => .literal (unifyLineEnds content)
  | found => found

abbrev AgreeMark (first second : Except Fault (Mark × Text)) : Prop :=
  Agree (Behind fun found found' => found' = found.unified) first second

/-- What has been taken so far, the last character first, and what is ahead of it. -/
structure Taken (taken taken' ahead : Text) : Prop where
  eq : taken'.reverse = unifyLineEnds taken.reverse
  whole : ¬MeetInLineEnd taken.reverse ahead

theorem taken_nil (ahead : Text) : Taken [] [] ahead := ⟨rfl, fun h => nomatch h.1⟩

theorem Taken.take {piece : Text} (h : Taken taken taken' (piece ++ rest)) (hne : piece ≠ [])
    (hwhole : ¬MeetInLineEnd piece rest) :
    Taken (piece.reverse ++ taken) ((unifyLineEnds piece).reverse ++ taken') rest where
  eq := by
    have hmeet : ¬MeetInLineEnd taken.reverse piece := by
      rintro ⟨hlast, hhead⟩
      exact h.whole ⟨hlast, by rw [List.head?_append_of_ne_nil _ hne, hhead]⟩
    rw [List.reverse_append, List.reverse_append, List.reverse_reverse, List.reverse_reverse,
      unifyLineEnds_append hmeet, h.eq]
  whole := by
    rw [List.reverse_append, List.reverse_reverse]
    rintro ⟨hlast, hhead⟩
    rw [List.getLast?_append_of_ne_nil _ hne] at hlast
    exact hwhole ⟨hlast, hhead⟩

theorem Taken.pair (h : Taken taken taken' ('\r' :: '\n' :: rest)) :
    Taken ('\n' :: '\r' :: taken) ('\n' :: taken') rest :=
  Taken.take h (List.cons_ne_nil '\r' ['\n']) fun hmeet => absurd hmeet.1 (by decide)

theorem Taken.single (h : Taken taken taken' (c :: rest))
    (hsingle : ¬(c = '\r' ∧ rest.head? = some '\n')) :
    Taken (c :: taken) (unified c :: taken') rest := by
  have hpiece : unifyLineEnds [c] = [unified c] := unifyLineEnds_single fun hfeed => nomatch hfeed.2
  have htake := Taken.take h (List.cons_ne_nil c [])
    fun hmeet => hsingle ⟨Option.some.inj hmeet.1, hmeet.2⟩
  rwa [hpiece] at htake

theorem unified_of_isLineEnd (h : isLineEnd c) : unified c = '\n' := if_pos h

theorem unified_of_not_isLineEnd (h : isLineEnd c = false) : unified c = c := by
  rw [unified, h]
  rfl

/-- Reading goes on behind the first character of a comment, unless it may be the end. -/
theorem comment_cons (h : ¬(c = '-' ∧ rest.head? = some '-')) :
    comment opening (c :: rest) =
      if isLegal c then comment opening rest else fail .badToken (c :: rest) := by
  rw [comment]
  · rintro more rfl rfl
    exact h ⟨rfl, rfl⟩
  · rintro more rfl rfl
    exact h ⟨rfl, rfl⟩

theorem isLegal_of_isLineEnd (h : isLineEnd c) : isLegal c = true := by
  rcases isLineEnd_iff.mp h with rfl | rfl <;> rfl

theorem agree_comment (opening opening' text : Text) :
    Agree (fun rest rest' => rest' = unifyLineEnds rest) (comment opening text)
      (comment opening' (unifyLineEnds text)) := by
  have hpass {opening rest : Text} {c : Char} (hc : isLineEnd c) :
      comment opening (c :: rest) = comment opening rest := by
    rw [comment_cons, if_pos (isLegal_of_isLineEnd hc)]
    rintro ⟨rfl, -⟩
    cases hc
  induction text using lineEnd_induction with
  | nil => exact agree_fail _ _ _ _
  | pair rest ih =>
    rw [unifyLineEnds_return_feed, hpass rfl, hpass rfl, hpass rfl]
    exact ih
  | single rest hrest ih =>
    rw [unifyLineEnds_return hrest, hpass rfl, hpass rfl]
    exact ih
  | feed rest ih =>
    rw [unifyLineEnds_feed, hpass rfl, hpass rfl]
    exact ih
  | other c rest hc ih =>
    rw [unifyLineEnds_cons hc]
    by_cases hdash : c = '-'
    · subst hdash
      obtain ⟨more, rfl, hmore⟩ | ⟨hne, hne'⟩ := cons_or_not (c := '-') (by decide) rest
      · rw [hmore]
        obtain ⟨behind, rfl, hbehind⟩ | ⟨hne, hne'⟩ := cons_or_not (c := '>') (by decide) more
        · rw [hbehind]
          exact .ok rfl
        · rw [comment, comment]
          · exact agree_refuse _ _ _ _
          · rintro behind heq
            exact hne' (congrArg List.head? heq)
          · rintro behind rfl
            exact hne rfl
      · rw [comment_cons fun h => hne h.2, comment_cons fun h => hne' h.2]
        split_ifs
        · exact ih
        · exact agree_fail _ _ _ _
    · rw [comment_cons fun h => hdash h.1, comment_cons fun h => hdash h.1]
      split_ifs
      · exact ih
      · exact agree_fail _ _ _ _

theorem instructionBody_cons (h : ¬(c = '?' ∧ rest.head? = some '>')) :
    instructionBody opening taken (c :: rest) =
      if isLegal c then instructionBody opening (c :: taken) rest
      else fail .badToken (c :: rest) := by
  rw [instructionBody]
  rintro more rfl rfl
  exact h ⟨rfl, rfl⟩

theorem agree_instructionBody (htaken : Taken taken taken' text) :
    Agree (Behind fun body body' => body' = unifyLineEnds body)
      (instructionBody opening taken text)
      (instructionBody opening' taken' (unifyLineEnds text)) := by
  have hpass {opening taken rest : Text} {c : Char} (hc : isLineEnd c) :
      instructionBody opening taken (c :: rest) = instructionBody opening (c :: taken) rest := by
    rw [instructionBody_cons, if_pos (isLegal_of_isLineEnd hc)]
    rintro ⟨rfl, -⟩
    cases hc
  induction text using lineEnd_induction generalizing taken taken' with
  | nil => exact agree_fail _ _ _ _
  | pair rest ih =>
    rw [unifyLineEnds_return_feed, hpass rfl, hpass rfl, hpass rfl]
    exact ih htaken.pair
  | single rest hrest ih =>
    rw [unifyLineEnds_return hrest, hpass rfl, hpass rfl]
    exact ih (htaken.single fun h => hrest h.2)
  | feed rest ih =>
    rw [unifyLineEnds_feed, hpass rfl, hpass rfl]
    exact ih (htaken.single fun h => nomatch h.1)
  | other c rest hc ih =>
    rw [unifyLineEnds_cons hc]
    have hnext := htaken.single fun h => by rw [h.1] at hc; cases hc
    rw [unified_of_not_isLineEnd hc] at hnext
    by_cases hmark : c = '?'
    · subst hmark
      obtain ⟨more, rfl, hmore⟩ | ⟨hne, hne'⟩ := cons_or_not (c := '>') (by decide) rest
      · rw [hmore]
        exact .ok ⟨htaken.eq, rfl⟩
      · rw [instructionBody_cons fun h => hne h.2, instructionBody_cons fun h => hne' h.2]
        split_ifs
        · exact ih hnext
        · exact agree_fail _ _ _ _
    · rw [instructionBody_cons fun h => hmark h.1, instructionBody_cons fun h => hmark h.1]
      split_ifs
      · exact ih hnext
      · exact agree_fail _ _ _ _

theorem agree_instruction (opening opening' text : Text) :
    AgreeMark (instruction opening text) (instruction opening' (unifyLineEnds text)) := by
  rw [instruction, instruction]
  refine (agree_simpleName opening opening' text).bind ?_
  rintro ⟨target, rest⟩ ⟨_, _⟩ - - ⟨rfl, rfl⟩
  have hbody (found : Text → Mark) (hfound : ∀ body, found (unifyLineEnds body) =
      (found body).unified) :
      AgreeMark (instructionBody opening [] rest >>= fun x => pure (found x.1, x.2))
        (instructionBody opening' [] (unifyLineEnds rest) >>= fun x => pure (found x.1, x.2)) := by
    refine (agree_instructionBody (taken_nil rest)).bind ?_
    rintro ⟨body, rest⟩ ⟨_, _⟩ - - ⟨rfl, rfl⟩
    exact .ok ⟨hfound body, rfl⟩
  cases front rest with
  | nil htext hother =>
    simp only [hother]
    simp only [htext]
    exact agree_fail _ _ _ _
  | @lineEnd c after more hc htext hother =>
    have hspace : isSpace '\n' = true := rfl
    have hmark : ('\n' == '?') = false := rfl
    have hmark' : (c == '?') = false := beq_false_of_ne fun h => by rw [h] at hc; cases hc
    simp only [hother] at hbody
    simp only [htext] at hbody
    simp only [hother, hspace, hmark]
    simp only [htext, isSpace_of_isLineEnd hc, hmark', Bool.not_true, Bool.false_and,
      Bool.false_eq_true, if_false]
    split_ifs
    · exact agree_fail _ _ _ _
    · exact hbody .xmlDeclaration fun _ => rfl
    · exact hbody (fun _ => .instruction) fun _ => rfl
  | @char c after hc htext hother =>
    have hclosing : ((unifyLineEnds after).head? != some '>') = (after.head? != some '>') := by
      obtain ⟨more, rfl, hmore⟩ | ⟨hne, hne'⟩ := cons_or_not (c := '>') (by decide) after
      · rw [hmore, List.head?_cons, List.head?_cons]
      · rw [bne_iff_ne.mpr hne, bne_iff_ne.mpr hne']
    simp only [hother] at hbody
    simp only [htext] at hbody
    simp only [hother, hclosing]
    simp only [htext]
    split_ifs
    · exact agree_fail _ _ _ _
    · exact agree_fail _ _ _ _
    · exact agree_refuse _ _ _ _
    · exact hbody .xmlDeclaration fun _ => rfl
    · exact hbody (fun _ => .instruction) fun _ => rfl

theorem agree_literal {quote : Char} (hquote : isLineEnd quote = false)
    (htaken : Taken taken taken' text) :
    AgreeMark (literal opening quote taken text)
      (literal opening' quote taken' (unifyLineEnds text)) := by
  have hpass {opening taken rest : Text} {c : Char} (hc : isLineEnd c) :
      literal opening quote taken (c :: rest) = literal opening quote (c :: taken) rest := by
    have hne : (c == quote) = false := beq_false_of_ne fun h => by rw [h, hquote] at hc; cases hc
    rw [literal.eq_def]
    simp only [isLegal_of_isLineEnd hc, hne, Bool.not_true, Bool.false_eq_true, if_false]
  induction text using lineEnd_induction generalizing taken taken' with
  | nil => exact agree_fail _ _ _ _
  | pair rest ih =>
    rw [unifyLineEnds_return_feed, hpass rfl, hpass rfl, hpass rfl]
    exact ih htaken.pair
  | single rest hrest ih =>
    rw [unifyLineEnds_return hrest, hpass rfl, hpass rfl]
    exact ih (htaken.single fun h => hrest h.2)
  | feed rest ih =>
    rw [unifyLineEnds_feed, hpass rfl, hpass rfl]
    exact ih (htaken.single fun h => nomatch h.1)
  | other c rest hc ih =>
    have hnext := htaken.single fun h => by rw [h.1] at hc; cases hc
    rw [unified_of_not_isLineEnd hc] at hnext
    rw [unifyLineEnds_cons hc, literal.eq_def, literal.eq_def]
    dsimp only
    split_ifs
    · exact agree_fail _ _ _ _
    · have hcontent : Mark.literal taken'.reverse = Mark.unified (.literal taken.reverse) :=
        congrArg Mark.literal htaken.eq
      cases front rest with
      | nil htext hother =>
        rw [hother, htext]
        exact .ok ⟨hcontent, rfl⟩
      | @lineEnd d behind more hd htext hother =>
        simp only [hother]
        simp only [htext, isSpace_of_isLineEnd hd]
        rw [if_pos (by simp), if_pos (by decide)]
        exact .ok ⟨hcontent, by rw [← hother, htext]⟩
      | @char d behind hd htext hother =>
        simp only [hother]
        simp only [htext]
        split_ifs
        · exact .ok ⟨hcontent, by rw [← hother, htext]⟩
        · exact agree_fail _ _ _ _
    · exact ih hnext

theorem keyword_unifyLineEnds (text : Text) :
    (unifyLineEnds text).takeWhile isKeywordChar = text.takeWhile isKeywordChar ∧
      (unifyLineEnds text).dropWhile isKeywordChar =
        unifyLineEnds (text.dropWhile isKeywordChar) :=
  ⟨takeWhile_unifyLineEnds rfl rfl text, dropWhile_unifyLineEnds rfl text⟩

theorem exclamation_other (hdash : text.head? ≠ some '-') (hbracket : text.head? ≠ some '[') :
    exclamation opening text =
      match text.takeWhile isKeywordChar, text.dropWhile isKeywordChar with
      | [], rest => refuse opening rest
      | _, [] => fail .unclosedToken opening
      | keyword, c :: rest =>
        if isSpace c then .ok (.declaration keyword, c :: rest)
        else if c == '%' then
          match rest with
          | [] => fail .unclosedToken opening
          | d :: _ =>
            if isSpace d || d == '%' then fail .badToken (c :: rest)
            else .ok (.declaration keyword, c :: rest)
        else fail .badToken (c :: rest) := by
  rw [exclamation.eq_def]
  split
  · exact absurd rfl hdash
  · exact absurd rfl hdash
  · exact absurd rfl hbracket
  · rfl

theorem agree_exclamation (opening opening' text : Text) :
    AgreeMark (exclamation opening text) (exclamation opening' (unifyLineEnds text)) := by
  obtain ⟨more, rfl, hmore⟩ | ⟨hdash, hdash'⟩ := cons_or_not (c := '-') (by decide) text
  · rw [hmore]
    obtain ⟨behind, rfl, hbehind⟩ | ⟨hne, hne'⟩ := cons_or_not (c := '-') (by decide) more
    · rw [hbehind]
      refine (agree_comment opening opening' behind).bind ?_
      rintro rest _ - - rfl
      exact .ok ⟨rfl, rfl⟩
    · rw [exclamation, exclamation]
      · exact agree_refuse _ _ _ _
      · rintro behind heq
        exact hne' (congrArg List.head? heq)
      · rintro behind rfl
        exact hne rfl
  obtain ⟨more, rfl, hmore⟩ | ⟨hbracket, hbracket'⟩ := cons_or_not (c := '[') (by decide) text
  · rw [hmore]
    exact .ok ⟨rfl, rfl⟩
  rw [exclamation_other hdash hbracket, exclamation_other hdash' hbracket',
    (keyword_unifyLineEnds text).1, (keyword_unifyLineEnds text).2]
  generalize text.dropWhile isKeywordChar = rest
  cases text.takeWhile isKeywordChar with
  | nil => exact agree_refuse _ _ _ _
  | cons first keyword =>
    cases front rest with
    | nil htext hother =>
      rw [hother, htext]
      exact agree_fail _ _ _ _
    | @lineEnd c after more hc htext hother =>
      simp only [hother]
      simp only [htext, isSpace_of_isLineEnd hc]
      rw [if_pos trivial, if_pos (by decide)]
      exact .ok ⟨rfl, by rw [← hother, htext]⟩
    | @char c after hc htext hother =>
      simp only [hother]
      simp only [htext]
      split_ifs
      · exact .ok ⟨rfl, by rw [← hother, htext]⟩
      · cases front after with
        | nil htext' hother' =>
          simp only [hother']
          simp only [htext']
          exact agree_fail _ _ _ _
        | @lineEnd d _ more hd htext' hother' =>
          simp only [hother']
          simp only [htext', isSpace_of_isLineEnd hd]
          rw [if_pos (by simp), if_pos (by decide)]
          exact agree_fail _ _ _ _
        | @char d behind hd htext' hother' =>
          simp only [hother']
          simp only [htext']
          split_ifs
          · exact agree_fail _ _ _ _
          · exact .ok ⟨rfl, by rw [unifyLineEnds_cons hc, unifyLineEnds_cons hd]⟩
      · exact agree_fail _ _ _ _

theorem isNameChar_of_isLineEnd (h : isLineEnd c) : isNameChar c = false := by
  rcases isLineEnd_iff.mp h with rfl | rfl <;> rfl

theorem unified_ending (kind : TokenKind) (taken : Text) :
    (nameToken.ending kind taken).unified = nameToken.ending kind taken := by
  cases kind <;> rfl

theorem nameToken_lineEnd (kind : TokenKind) (hc : isLineEnd c) :
    nameToken opening kind taken (c :: rest) = .ok (nameToken.ending kind taken, c :: rest) := by
  have hcolon : (c == ':') = false := beq_false_of_ne fun h => by rw [h] at hc; cases hc
  rw [nameToken.eq_def]
  simp only [isNameChar_of_isLineEnd hc, hcolon, isSpace_of_isLineEnd hc, Bool.true_or,
    Bool.false_eq_true, if_false, if_true]

theorem agree_nameToken (kind : TokenKind) (taken text : Text) :
    AgreeMark (nameToken opening kind taken text)
      (nameToken opening' kind taken (unifyLineEnds text)) := by
  induction text generalizing kind taken with
  | nil => exact .ok ⟨(unified_ending kind taken).symm, rfl⟩
  | cons c rest ih =>
    cases hc : isLineEnd c with
    | true =>
      obtain ⟨more, hmore⟩ := exists_feed_of_isLineEnd hc rest
      rw [nameToken_lineEnd kind hc, hmore, nameToken_lineEnd kind rfl]
      exact .ok ⟨(unified_ending kind taken).symm, hmore.symm⟩
    | false =>
      rw [unifyLineEnds_cons hc, nameToken.eq_def, nameToken.eq_def]
      dsimp only
      split_ifs
      · exact ih _ _
      · cases kind with
        | name =>
          dsimp only
          cases front rest with
          | nil htext hother =>
            rw [hother, htext]
            exact agree_fail _ _ _ _
          | @lineEnd d _ _ hd htext hother =>
            have hloose := ih .loose (c :: taken)
            rw [hother] at hloose ⊢
            simp only [htext, isNameChar_of_isLineEnd hd] at hloose ⊢
            exact hloose
          | @char d _ hd htext hother =>
            have hnext := ih (if isNameChar d then .qualified else .loose) (c :: taken)
            rw [hother] at hnext ⊢
            simp only [htext] at hnext ⊢
            exact hnext
        | qualified => exact ih _ _
        | loose => exact ih _ _
      · exact .ok ⟨(unified_ending kind taken).symm, (unifyLineEnds_cons hc).symm⟩
      · cases kind with
        | loose => exact agree_fail _ _ _ _
        | name => exact .ok ⟨rfl, rfl⟩
        | qualified => exact .ok ⟨rfl, rfl⟩
      · exact agree_fail _ _ _ _

theorem agree_percent (opening opening' text : Text) :
    AgreeMark (percent opening text) (percent opening' (unifyLineEnds text)) := by
  cases front text with
  | nil htext hother =>
    rw [hother, htext]
    exact agree_fail _ _ _ _
  | @lineEnd c _ _ hc htext hother =>
    rw [hother, htext, percent, percent, if_pos (by simp [isSpace_of_isLineEnd hc]),
      if_pos (by decide)]
    exact .ok ⟨rfl, by rw [← hother, htext]⟩
  | @char c rest hc htext hother =>
    have hname := agree_simpleName opening opening' text
    rw [hother, htext] at hname
    rw [hother, htext, percent, percent]
    split_ifs
    · exact .ok ⟨rfl, (unifyLineEnds_cons hc).symm⟩
    · refine hname.bind ?_
      rintro ⟨name, rest⟩ ⟨_, _⟩ - - ⟨-, rfl⟩
      dsimp only
      obtain ⟨more, rfl, hmore⟩ | ⟨hne, hne'⟩ := cons_or_not (c := ';') (by decide) rest
      · rw [hmore]
        exact .ok ⟨rfl, rfl⟩
      · split
        · exact absurd rfl hne
        · split
          · rename_i heq
            exact absurd (congrArg List.head? heq) hne'
          · exact agree_refuse _ _ _ _

theorem agree_pound (opening opening' text : Text) :
    AgreeMark (pound opening text) (pound opening' (unifyLineEnds text)) := by
  rw [pound, pound]
  refine (agree_simpleName opening opening' text).bind ?_
  rintro ⟨name, rest⟩ ⟨_, _⟩ - - ⟨-, rfl⟩
  cases front rest with
  | nil htext hother =>
    simp only [hother]
    simp only [htext]
    exact .ok ⟨rfl, rfl⟩
  | @lineEnd c _ _ hc htext hother =>
    simp only [hother]
    simp only [htext, isSpace_of_isLineEnd hc]
    rw [if_pos (by simp), if_pos (by decide)]
    exact .ok ⟨rfl, by rw [← hother, htext]⟩
  | @char c more hc htext hother =>
    simp only [hother]
    simp only [htext]
    split_ifs
    · exact .ok ⟨rfl, (unifyLineEnds_cons hc).symm⟩
    · exact agree_fail _ _ _ _

theorem mark_element (hbang : c ≠ '!') (hquestion : c ≠ '?') :
    mark ('<' :: c :: rest) =
      if mayOpenElement c then .ok (.element, c :: rest) else fail .badToken (c :: rest) := by
  rw [mark.eq_5]
  · rintro more heq
    exact hbang (List.cons.inj heq).1
  · rintro more heq
    exact hquestion (List.cons.inj heq).1

theorem agree_mark_element (rest : Text) :
    AgreeMark (mark ('<' :: rest)) (mark ('<' :: unifyLineEnds rest)) := by
  cases front rest with
  | nil htext hother =>
    rw [hother, htext]
    exact agree_fail _ _ _ _
  | @lineEnd c _ _ hc htext hother =>
    have hclosed : mayOpenElement c = false := by
      rcases isLineEnd_iff.mp hc with rfl | rfl <;> rfl
    have hne (mark : Char) (hmark : isLineEnd mark = false) : c ≠ mark := by
      rintro rfl
      rw [hc] at hmark
      cases hmark
    rw [hother, htext, mark_element (hne _ rfl) (hne _ rfl),
      mark_element (by decide) (by decide), hclosed]
    exact agree_fail _ _ _ _
  | @char c more hc htext hother =>
    rw [hother, htext]
    by_cases hbang : c = '!'
    · subst hbang
      exact agree_exclamation _ _ more
    by_cases hquestion : c = '?'
    · subst hquestion
      exact agree_instruction _ _ more
    rw [mark_element hbang hquestion, mark_element hbang hquestion]
    split_ifs
    · exact .ok ⟨rfl, (unifyLineEnds_cons hc).symm⟩
    · exact agree_fail _ _ _ _

theorem agree_mark_bracket (rest : Text) :
    AgreeMark (mark (']' :: rest)) (mark (']' :: unifyLineEnds rest)) := by
  obtain ⟨more, rfl, hmore⟩ | ⟨hne, hne'⟩ := cons_or_not (c := ']') (by decide) rest
  · by_cases hend : more = []
    · rw [hmore, hend]
      exact agree_fail _ _ _ _
    obtain ⟨behind, rfl, hbehind⟩ | ⟨hne, hne'⟩ := cons_or_not (c := '>') (by decide) more
    · rw [hmore, hbehind]
      exact .ok ⟨rfl, rfl⟩
    · have hbracket {more : Text} (hend : more ≠ []) (hne : more.head? ≠ some '>') :
          mark (']' :: ']' :: more) = .ok (.closeBracket, ']' :: more) := by
        rw [mark.eq_8]
        · exact fun heq => hend (List.cons.inj heq).2
        · exact fun behind heq => hne (congrArg List.head? (List.cons.inj heq).2)
      rw [hmore, hbracket hend hne, hbracket (mt unifyLineEnds_eq_nil_iff.mp hend) hne']
      exact .ok ⟨rfl, hmore.symm⟩
  · have hbracket {rest : Text} (hne : rest.head? ≠ some ']') :
        mark (']' :: rest) = .ok (.closeBracket, rest) := by
      rw [mark.eq_8]
      · exact fun heq => hne (congrArg List.head? heq)
      · exact fun behind heq => hne (congrArg List.head? heq)
    rw [hbracket hne, hbracket hne']
    exact .ok ⟨rfl, rfl⟩

theorem agree_mark_parenthesis (rest : Text) :
    AgreeMark (mark (')' :: rest)) (mark (')' :: unifyLineEnds rest)) := by
  cases front rest with
  | nil htext hother =>
    rw [hother, htext]
    exact .ok ⟨rfl, rfl⟩
  | @lineEnd c _ _ hc htext hother =>
    have hrepeat : "*?+".toList.contains c = false := by
      rcases isLineEnd_iff.mp hc with rfl | rfl <;> rfl
    rw [hother, htext, mark.eq_10, mark.eq_10, hrepeat, isSpace_of_isLineEnd hc,
      if_neg Bool.false_ne_true, if_pos (by simp), if_neg (by decide), if_pos (by decide)]
    exact .ok ⟨rfl, by rw [← hother, htext]⟩
  | @char c more hc htext hother =>
    rw [hother, htext, mark.eq_10, mark.eq_10]
    split_ifs
    · exact .ok ⟨rfl, rfl⟩
    · exact .ok ⟨rfl, (unifyLineEnds_cons hc).symm⟩
    · exact agree_fail _ _ _ _

def isMarkSign (c : Char) : Bool := "<])[>%#".toList.contains c

theorem mark_other (h : isMarkSign c = false) :
    mark (c :: rest) =
      if isSpace c then .ok (.space, skipSpace rest)
      else if c == '"' || c == '\'' then literal (c :: rest) c [] rest
      else if c == ',' || c == '|' || c == '(' then .ok (.other, rest)
      else if isNameStart c then nameToken (c :: rest) .name [c] rest
      else if isNameChar c || c == ':' then nameToken (c :: rest) .loose [c] rest
      else fail .badToken (c :: rest) := by
  rw [mark.eq_15]
  all_goals
    intros
    subst_vars
    exact absurd h (by decide)

theorem agree_mark (text : Text) : AgreeMark (mark text) (mark (unifyLineEnds text)) := by
  cases front text with
  | nil htext hother =>
    rw [hother, htext]
    exact .ok ⟨rfl, rfl⟩
  | @lineEnd c rest more hc htext hother =>
    have hsign : isMarkSign c = false := by
      rcases isLineEnd_iff.mp hc with rfl | rfl <;> rfl
    have hskip := skipSpace_unifyLineEnds text
    rw [hother, htext, skipSpace, skipSpace, List.dropWhile_cons_of_pos (by decide),
      List.dropWhile_cons_of_pos (isSpace_of_isLineEnd hc)] at hskip
    rw [hother, htext, mark_other hsign, mark_other (by decide), if_pos (isSpace_of_isLineEnd hc),
      if_pos (by decide)]
    exact .ok ⟨rfl, hskip⟩
  | @char c rest hc htext hother =>
    rw [hother, htext]
    cases hsign : isMarkSign c with
    | true =>
      have hmem : c ∈ ['<', ']', ')', '[', '>', '%', '#'] := List.contains_iff_mem.mp hsign
      simp only [List.mem_cons, List.not_mem_nil, or_false] at hmem
      rcases hmem with rfl | rfl | rfl | rfl | rfl | rfl | rfl
      · exact agree_mark_element rest
      · exact agree_mark_bracket rest
      · exact agree_mark_parenthesis rest
      · exact .ok ⟨rfl, rfl⟩
      · exact .ok ⟨rfl, rfl⟩
      · exact agree_percent _ _ rest
      · exact agree_pound _ _ rest
    | false =>
      rw [mark_other hsign, mark_other hsign]
      split_ifs
      · exact .ok ⟨rfl, skipSpace_unifyLineEnds rest⟩
      · exact agree_literal hc (taken_nil rest)
      · exact .ok ⟨rfl, rfl⟩
      · exact agree_nameToken _ _ rest
      · exact agree_nameToken _ _ rest
      · exact agree_fail _ _ _ _

end Visualforce.Xml
