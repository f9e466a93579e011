import Visualforce.Proofs.Text.LineEnds
import Visualforce.Proofs.Xml.Accepted
import Visualforce.Xml.Namespace

/-! # Tags and line ends

A start tag is read alike from a text and from the text with its line ends unified. What is left of
the two texts behind the tag differs only in its line ends as well.
-/
namespace Visualforce.Xml
open Digest
open Markup (LooseAttribute LooseTag)

variable {α β : Type} {opening opening' text rest : Text} {c : Char}

/-- Related values, and behind them texts that differ in their line ends. -/
def Behind (related : α → β → Prop) (first : α × Text) (second : β × Text) : Prop :=
  related first.1 second.1 ∧ second.2 = unifyLineEnds first.2

theorem agree_fail {related : α → β → Prop} (reason reason' : Reason) (rest rest' : Text) :
    Agree related (fail reason rest) (fail reason' rest') :=
  .error _ _

theorem agree_refuse {related : α → β → Prop} (opening opening' rest rest' : Text) :
    Agree related (refuse opening rest) (refuse opening' rest') := by
  rw [refuse, refuse]
  split_ifs <;> exact agree_fail _ _ _ _

theorem isSpace_of_isLineEnd (h : isLineEnd c) : isSpace c = true := by
  rcases isLineEnd_iff.mp h with rfl | rfl <;> rfl

theorem skipSpace_unifyLineEnds (text : Text) :
    skipSpace (unifyLineEnds text) = unifyLineEnds (skipSpace text) :=
  dropWhile_unifyLineEnds rfl text

/-- What stands behind space is no line end in either text. -/
theorem front_skipSpace (text : Text) :
    (skipSpace text = [] ∧ skipSpace (unifyLineEnds text) = []) ∨
      ∃ c rest, isLineEnd c = false ∧ skipSpace text = c :: rest ∧
        skipSpace (unifyLineEnds text) = c :: unifyLineEnds rest := by
  rw [skipSpace_unifyLineEnds]
  cases front (skipSpace text) with
  | nil htext hother => exact .inl ⟨htext, hother⟩
  | @lineEnd c _ _ hc htext hother =>
    have hspace : isSpace c = false :=
      Text.not_of_mem_head?_dropWhile (congrArg List.head? htext)
    rw [isSpace_of_isLineEnd hc] at hspace
    cases hspace
  | @char c rest hc htext hother => exact .inr ⟨c, rest, hc, htext, hother⟩

theorem isNameStart_of_isLineEnd (h : isLineEnd c) : isNameStart c = false := by
  rcases isLineEnd_iff.mp h with rfl | rfl <;> rfl

theorem nameRun_unifyLineEnds (text : Text) :
    (unifyLineEnds text).takeWhile isNameChar = text.takeWhile isNameChar ∧
      (unifyLineEnds text).dropWhile isNameChar = unifyLineEnds (text.dropWhile isNameChar) :=
  ⟨takeWhile_unifyLineEnds rfl rfl text, dropWhile_unifyLineEnds rfl text⟩

theorem agree_simpleName (opening opening' text : Text) :
    Agree (Behind Eq) (simpleName opening text) (simpleName opening' (unifyLineEnds text)) := by
  cases front text with
  | nil htext hother =>
    rw [hother, htext]
    exact agree_fail _ _ _ _
  | lineEnd hc htext hother =>
    rw [hother, htext, simpleName, simpleName, if_neg (by simp [isNameStart_of_isLineEnd hc]),
      if_neg (by decide)]
    exact agree_fail _ _ _ _
  | @char c rest hc htext hother =>
    rw [hother, htext, simpleName, simpleName, (nameRun_unifyLineEnds rest).1,
      (nameRun_unifyLineEnds rest).2]
    split_ifs
    · exact .ok ⟨rfl, rfl⟩
    · exact agree_fail _ _ _ _

theorem agree_writtenName (opening opening' text : Text) :
    Agree (Behind Eq) (writtenName opening text) (writtenName opening' (unifyLineEnds text)) := by
  refine (agree_simpleName opening opening' text).bind ?_
  rintro ⟨first, rest⟩ ⟨_, _⟩ - - ⟨rfl, rfl⟩
  obtain ⟨after, rfl, hother⟩ | ⟨hne, hne'⟩ := cons_or_not (c := ':') (by decide) rest
  · simp only [hother]
    refine (agree_simpleName opening opening' after).bind ?_
    rintro ⟨base, rest⟩ ⟨_, _⟩ - - ⟨rfl, rfl⟩
    exact .ok ⟨rfl, rfl⟩
  · dsimp only
    split
    · exact absurd rfl hne
    · split
      · rename_i heq
        exact absurd (congrArg List.head? heq) hne'
      · exact .ok ⟨rfl, rfl⟩

theorem agree_numbered {isDigit : Char → Bool} (hreturn : isDigit '\r' = false)
    (hfeed : isDigit '\n' = false) (base : Nat) (opening opening' text : Text) :
    Agree (Behind Eq) (reference.numbered opening base isDigit text)
      (reference.numbered opening' base isDigit (unifyLineEnds text)) := by
  rw [reference.numbered, reference.numbered, takeWhile_unifyLineEnds hreturn hfeed,
    dropWhile_unifyLineEnds (hreturn.trans hfeed.symm)]
  generalize text.dropWhile isDigit = rest
  cases text.takeWhile isDigit with
  | nil => exact agree_refuse _ _ _ _
  | cons digit digits =>
    obtain ⟨after, rfl, hother⟩ | ⟨hne, hne'⟩ := cons_or_not (c := ';') (by decide) rest
    · rw [hother]
      exact .ok ⟨rfl, rfl⟩
    · split
      · rename_i heq
        cases heq
      · exact absurd rfl hne
      · split
        · rename_i heq
          cases heq
        · rename_i heq _
          exact absurd (congrArg List.head? heq) hne'
        · exact agree_refuse _ _ _ _

theorem agree_reference (opening opening' text : Text) :
    Agree (Behind Eq) (reference opening text) (reference opening' (unifyLineEnds text)) := by
  obtain ⟨after, rfl, hother⟩ | ⟨hne, hne'⟩ := cons_or_not (c := '#') (by decide) text
  · rw [hother]
    obtain ⟨digits, rfl, hother⟩ | ⟨hne, hne'⟩ := cons_or_not (c := 'x') (by decide) after
    · rw [hother]
      exact agree_numbered (by decide) (by decide) 16 opening opening' digits
    · rw [reference, reference]
      · exact agree_numbered (by decide) (by decide) 10 opening opening' after
      · rintro rest heq
        exact hne' (congrArg List.head? heq)
      · rintro rest rfl
        exact hne rfl
  · rw [reference, reference]
    · refine (agree_simpleName opening opening' text).bind ?_
      rintro ⟨name, rest⟩ ⟨_, _⟩ - - ⟨rfl, rfl⟩
      obtain ⟨after, rfl, hother⟩ | ⟨hne, hne'⟩ := cons_or_not (c := ';') (by decide) rest
      · simp only [hother]
        exact .ok ⟨rfl, rfl⟩
      · dsimp only
        split
        · exact absurd rfl hne
        · split
          · rename_i heq
            exact absurd (congrArg List.head? heq) hne'
          · exact agree_refuse _ _ _ _
    all_goals
      intro rest heq
      first
        | exact hne (congrArg List.head? heq)
        | exact hne' (congrArg List.head? heq)

/-- The same part of a value, whatever text it stands in. -/
inductive SamePart : ValuePart → ValuePart → Prop where
  | char (c : Char) : SamePart (.char c) (.char c)
  | reference (ref : Reference) (place place' : Text) :
      SamePart (.reference ref place) (.reference ref place')

abbrev SameValue : List ValuePart → List ValuePart → Prop := List.Forall₂ SamePart

section Value
variable {quote : Char} {fuel fuel' : Nat} {parts parts' : List ValuePart}

/-- A line end in a value is read as one space, whichever it is. -/
theorem attributeValue_lineEnd (hquote : isLineEnd quote = false) (hc : isLineEnd c)
    (hsingle : ¬(c = '\r' ∧ rest.head? = some '\n')) :
    attributeValue opening quote (fuel + 1) parts (c :: rest) =
      attributeValue opening quote fuel (.char ' ' :: parts) rest := by
  rw [attributeValue.eq_def]
  rcases isLineEnd_iff.mp hc with rfl | rfl
  · simp only [(beq_lineEnd hquote).2]
    rfl
  · simp only [(beq_lineEnd hquote).1]
    rw [if_neg Bool.false_ne_true, if_neg (by decide), if_neg (by decide), if_pos (by decide)]
    split
    · exact absurd ⟨rfl, rfl⟩ hsingle
    · rfl

theorem attributeValue_return_feed (hquote : isLineEnd quote = false) :
    attributeValue opening quote (fuel + 1) parts ('\r' :: '\n' :: rest) =
      attributeValue opening quote fuel (.char ' ' :: parts) rest := by
  rw [attributeValue.eq_def]
  simp only [(beq_lineEnd hquote).1]
  rfl

theorem agree_attributeValue (hquote : isLineEnd quote = false) (hparts : SameValue parts parts')
    (hfuel : text.length < fuel) (hfuel' : (unifyLineEnds text).length < fuel') :
    Agree (Behind SameValue) (attributeValue opening quote fuel parts text)
      (attributeValue opening' quote fuel' parts' (unifyLineEnds text)) := by
  induction fuel generalizing fuel' parts parts' text with
  | zero => cases hfuel
  | succ fuel ih =>
    obtain ⟨fuel', rfl⟩ : ∃ k, fuel' = k + 1 := ⟨fuel' - 1, by omega⟩
    have hspace : SameValue (.char ' ' :: parts) (.char ' ' :: parts') := .cons (.char ' ') hparts
    have hfeed (rest : Text) : ¬('\n' = '\r' ∧ rest.head? = some '\n') := fun h => nomatch h.1
    induction text using lineEnd_induction with
    | nil => exact agree_fail _ _ _ _
    | pair rest _ =>
      rw [unifyLineEnds_return_feed] at hfuel' ⊢
      rw [attributeValue_return_feed hquote, attributeValue_lineEnd hquote rfl (hfeed _)]
      simp only [List.length_cons] at hfuel hfuel'
      exact ih hspace (by omega) (by omega)
    | single rest hrest _ =>
      rw [unifyLineEnds_return hrest] at hfuel' ⊢
      rw [attributeValue_lineEnd hquote rfl fun h => hrest h.2,
        attributeValue_lineEnd hquote rfl (hfeed _)]
      exact ih hspace (Nat.lt_of_succ_lt_succ hfuel) (Nat.lt_of_succ_lt_succ hfuel')
    | feed rest _ =>
      rw [unifyLineEnds_feed] at hfuel' ⊢
      rw [attributeValue_lineEnd hquote rfl (hfeed _), attributeValue_lineEnd hquote rfl (hfeed _)]
      exact ih hspace (Nat.lt_of_succ_lt_succ hfuel) (Nat.lt_of_succ_lt_succ hfuel')
    | other c rest hc _ =>
      rw [unifyLineEnds_cons hc] at hfuel' ⊢
      have hlt := Nat.lt_of_succ_lt_succ hfuel
      have hlt' := Nat.lt_of_succ_lt_succ hfuel'
      have hreturn : (c == '\r') = false := beq_false_of_ne fun h => by rw [h] at hc; cases hc
      rw [attributeValue.eq_def, attributeValue.eq_def]
      simp only [hreturn, Bool.false_eq_true, if_false]
      split_ifs
      · have hsame : SameValue parts.reverse parts'.reverse := List.rel_reverse hparts
        exact .ok ⟨hsame, rfl⟩
      · exact agree_fail _ _ _ _
      · refine (agree_reference opening opening' rest).bind ?_
        rintro ⟨ref, after⟩ ⟨_, _⟩ href href' ⟨rfl, rfl⟩
        obtain ⟨passed, hpassed, -⟩ := reference_eq_ok href
        obtain ⟨passed', hpassed', -⟩ := reference_eq_ok href'
        have hle := congrArg List.length hpassed
        have hle' := congrArg List.length hpassed'
        rw [List.length_append] at hle hle'
        dsimp only at hle hle' ⊢
        exact ih (.cons (.reference ref _ _) hparts) (by omega) (by omega)
      all_goals exact ih (.cons (.char _) hparts) hlt hlt'

end Value

structure SameAttribute (attr other : WrittenAttribute) : Prop where
  name : attr.name = other.name
  value : SameValue attr.value other.value

structure SameTag (tag other : StartTag) : Prop where
  name : tag.name = other.name
  attributes : List.Forall₂ SameAttribute tag.attributes other.attributes
  closed : tag.closed = other.closed

theorem agree_writtenAttribute (opening opening' text : Text) :
    Agree (Behind SameAttribute) (writtenAttribute opening text)
      (writtenAttribute opening' (unifyLineEnds text)) := by
  refine (agree_writtenName opening opening' text).bind ?_
  rintro ⟨name, rest⟩ ⟨_, _⟩ - - ⟨rfl, rfl⟩
  simp only [skipSpace_unifyLineEnds]
  obtain ⟨after, hafter, hother⟩ | ⟨hne, hne'⟩ :=
    cons_or_not (c := '=') (by decide) (skipSpace rest)
  · simp only [hafter, unifyLineEnds_cons (c := '=') (by decide)]
    obtain ⟨htext, hother⟩ | ⟨quote, rest, hc, htext, hother⟩ := front_skipSpace after
    · simp only [htext, hother]
      exact agree_refuse _ _ _ _
    · simp only [htext, hother]
      split_ifs
      · refine (agree_attributeValue hc .nil (Nat.lt_succ_self _) (Nat.lt_succ_self _)).bind ?_
        rintro ⟨value, rest⟩ ⟨value', _⟩ - - ⟨hvalue, rfl⟩
        exact .ok ⟨⟨rfl, hvalue⟩, rfl⟩
      · exact agree_refuse _ _ _ _
  · split
    · rename_i heq
      exact absurd (congrArg List.head? heq) hne
    · split
      · rename_i heq
        exact absurd (congrArg List.head? heq) hne'
      · exact agree_refuse _ _ _ _

theorem length_lt_of_writtenAttribute {attr : WrittenAttribute}
    (h : writtenAttribute opening text = .ok (attr, rest)) : rest.length < text.length := by
  have hblank : ∀ c ∈ [' '], Text.isBlank c := by decide
  obtain ⟨loose, hsource, hread⟩ :=
    writtenAttribute_eq_ok (List.cons_ne_nil ' ' []) hblank (by decide) h
  have hlength := congrArg List.length hsource
  have hname := List.length_pos_iff.mpr hread.loose.name.1
  have hgap := List.length_pos_iff.mpr hread.loose.gap.1
  simp only [LooseAttribute.source, LooseAttribute.body, List.length_append, List.length_cons,
    List.length_nil] at hlength
  omega

theorem length_le_of_startTag {tag : StartTag} (h : startTag opening text = .ok (tag, rest)) :
    rest.length ≤ text.length := by
  obtain ⟨loose, hsource, -⟩ := startTag_eq_ok h
  have hlength := congrArg List.length hsource
  simp only [LooseTag.source, List.length_append, List.length_cons] at hlength
  omega

theorem tagRest_other {name : WrittenName} {fuel : Nat} {attributes : List WrittenAttribute}
    (hplace : skipSpace text = c :: rest) (hclose : c ≠ '>') (hslash : c ≠ '/') :
    tagRest opening name (fuel + 1) attributes text =
      if isNameStart c && text.head?.any isSpace then
        writtenAttribute opening (c :: rest) >>= fun (attr, rest) =>
          tagRest opening name fuel (attr :: attributes) rest
      else fail .badToken (c :: rest) := by
  rw [tagRest, hplace]
  split
  · rename_i heq
    cases heq
  · rename_i heq
    exact absurd (List.cons.inj heq).1 hclose
  · rename_i heq
    exact absurd (List.cons.inj heq).1 hslash
  · rename_i heq
    exact absurd (List.cons.inj heq).1 hslash
  · rename_i heq
    obtain ⟨rfl, rfl⟩ := List.cons.inj heq
    rfl

theorem tagRest_slash {name : WrittenName} {fuel : Nat} {attributes : List WrittenAttribute}
    (hplace : skipSpace text = '/' :: rest) (hne : rest.head? ≠ some '>') :
    tagRest opening name (fuel + 1) attributes text = refuse opening rest := by
  rw [tagRest, hplace]
  split
  · rename_i heq
    cases heq
  · rename_i heq
    cases heq
  · rename_i heq
    exact absurd (congrArg List.head? (List.cons.inj heq).2) hne
  · rename_i heq
    rw [(List.cons.inj heq).2]
  · rename_i hslash heq
    exact absurd (List.cons.inj heq).1.symm (by simpa using hslash)

theorem agree_tagRest {name : WrittenName} {fuel fuel' : Nat}
    {attributes attributes' : List WrittenAttribute}
    (hattributes : List.Forall₂ SameAttribute attributes attributes') (hfuel : text.length < fuel)
    (hfuel' : (unifyLineEnds text).length < fuel') :
    Agree (Behind SameTag) (tagRest opening name fuel attributes text)
      (tagRest opening' name fuel' attributes' (unifyLineEnds text)) := by
  induction fuel generalizing fuel' attributes attributes' text with
  | zero => cases hfuel
  | succ fuel ih =>
    obtain ⟨fuel', rfl⟩ : ∃ k, fuel' = k + 1 := ⟨fuel' - 1, by omega⟩
    have hreverse : List.Forall₂ SameAttribute attributes.reverse attributes'.reverse :=
      List.rel_reverse hattributes
    obtain ⟨htext, hplace⟩ | ⟨c, rest, hc, htext, hplace⟩ := front_skipSpace text
    · rw [tagRest, tagRest, hplace, htext]
      exact agree_fail _ _ _ _
    · by_cases hclose : c = '>'
      · subst hclose
        rw [tagRest, tagRest, hplace, htext]
        exact .ok ⟨⟨rfl, hreverse, rfl⟩, rfl⟩
      by_cases hslash : c = '/'
      · subst hslash
        obtain ⟨more, rfl, hmore⟩ | ⟨hne, hne'⟩ := cons_or_not (c := '>') (by decide) rest
        · rw [tagRest, tagRest, hplace, htext, hmore]
          exact .ok ⟨⟨rfl, hreverse, rfl⟩, rfl⟩
        · rw [tagRest_slash htext hne, tagRest_slash hplace hne']
          exact agree_refuse _ _ _ _
      · rw [tagRest_other htext hclose hslash, tagRest_other hplace hclose hslash,
          any_head?_unifyLineEnds (by decide)]
        split_ifs
        · have hattribute := agree_writtenAttribute opening opening' (c :: rest)
          rw [unifyLineEnds_cons hc] at hattribute
          refine hattribute.bind ?_
          rintro ⟨attr, more⟩ ⟨attr', _⟩ hread hread' ⟨hattr, rfl⟩
          have hlt := length_lt_of_writtenAttribute hread
          have hlt' := length_lt_of_writtenAttribute hread'
          have hle := (List.dropWhile_suffix isSpace (l := text)).length_le
          have hle' := (List.dropWhile_suffix isSpace (l := unifyLineEnds text)).length_le
          rw [← skipSpace, htext] at hle
          rw [← skipSpace, hplace] at hle'
          dsimp only at hlt'
          exact ih (.cons hattr hattributes) (by omega) (by omega)
        · exact agree_fail _ _ _ _

theorem agree_startTag (opening opening' text : Text) :
    Agree (Behind SameTag) (startTag opening text) (startTag opening' (unifyLineEnds text)) := by
  refine (agree_writtenName opening opening' text).bind ?_
  rintro ⟨name, rest⟩ ⟨_, _⟩ - - ⟨rfl, rfl⟩
  exact agree_tagRest .nil (Nat.lt_succ_self _) (Nat.lt_succ_self _)

theorem agree_resolveValue (entities : Entities) (opening opening' : Text)
    {value value' : List ValuePart} (h : SameValue value value') :
    Agree Eq (resolveValue entities opening value) (resolveValue entities opening' value') := by
  refine (?_ : Agree (List.Forall₂ Eq) _ _).bind fun _ _ hparts => ?_
  · refine Agree.mapM h fun hpart => ?_
    cases hpart with
    | char c => exact .ok rfl
    | reference ref place place' =>
      cases ref with
      | number character =>
        cases character with
        | none => exact agree_fail _ _ _ _
        | some c => exact .ok rfl
      | entity name =>
        dsimp only
        cases entities.lookup? name with
        | some text => exact .ok rfl
        | none =>
          dsimp only
          split_ifs
          · exact .ok rfl
          · exact agree_fail _ _ _ _
  · rw [List.forall₂_eq_eq_eq] at hparts
    exact .ok (congrArg List.flatten hparts)

theorem agree_separate (entities : Entities) (opening opening' : Text)
    {attributes attributes' : List WrittenAttribute}
    (h : List.Forall₂ SameAttribute attributes attributes') (seen : List WrittenName)
    (scope : Scope) (others : List (WrittenName × Text)) :
    Agree Eq (separate entities opening attributes seen scope others)
      (separate entities opening' attributes' seen scope others) := by
  induction h generalizing seen scope others with
  | nil => exact .ok rfl
  | @cons attr attr' attributes attributes' hattr _ ih =>
    rw [separate, separate, hattr.name]
    split_ifs
    · exact agree_fail _ _ _ _
    · refine (agree_resolveValue entities opening opening' hattr.value).bind ?_
      rintro value _ - - rfl
      split
      · split
        · exact agree_fail _ _ _ _
        · exact ih _ _ _
      · exact ih _ _ _

theorem agree_expandAttributes (opening opening' : Text) (scope : Scope)
    (others : List (WrittenName × Text)) (expanded : List (Name × Text)) :
    Agree Eq (expandAttributes opening scope others expanded)
      (expandAttributes opening' scope others expanded) := by
  induction others generalizing expanded with
  | nil => exact .ok rfl
  | cons other others ih =>
    obtain ⟨name, value⟩ := other
    rw [expandAttributes, expandAttributes]
    split
    · exact ih _
    · split
      · exact agree_fail _ _ _ _
      · dsimp only
        split_ifs
        · exact agree_fail _ _ _ _
        · exact ih _

theorem agree_expandElement (opening opening' : Text) (scope : Scope) (name : WrittenName) :
    Agree Eq (expandElement opening scope name) (expandElement opening' scope name) := by
  rw [expandElement.eq_def, expandElement.eq_def]
  split
  · exact .ok rfl
  · exact .ok rfl
  · exact agree_fail _ _ _ _

theorem agree_openElement (entities : Entities) (scope : Scope) (opening opening' : Text)
    {tag tag' : StartTag} (h : SameTag tag tag') :
    Agree Eq (openElement entities scope opening tag)
      (openElement entities scope opening' tag') := by
  rw [openElement, openElement, h.name]
  refine (agree_separate entities opening opening' h.attributes [] scope []).bind ?_
  rintro ⟨scope, others⟩ _ - - rfl
  refine (agree_expandAttributes opening opening' scope others []).bind ?_
  rintro attributes _ - - rfl
  refine (agree_expandElement opening opening' scope tag'.name).bind ?_
  rintro name _ - - rfl
  exact .ok rfl

end Visualforce.Xml
