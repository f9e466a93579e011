import Visualforce.Proofs.Markup.LooseTag
import Visualforce.Proofs.Text.Somewhere
import Visualforce.Proofs.Xml.ReadTag

/-! # The start tags of a text

A text of markup is made of start tags, end tags, declarations, stretches that cover what is in
them, and the characters between these. Each of them is known by its first two characters and has
one end only, so the start tags that a text writes are determined by the text.
-/
namespace Visualforce.Markup
open Xml (takeWhile_append_of_head?)

/-- A stretch of a text in which no tag is looked for. -/
inductive Cover where
  | comment
  | verbatim
  | instruction
deriving DecidableEq

namespace Cover

def opening : Cover → Text
  | comment => "<!--".toList
  | verbatim => sectionOpening
  | instruction => "<?".toList

/-- What the body may not hold. -/
def mark : Cover → Text
  | comment => "--".toList
  | verbatim => sectionClosing
  | instruction => "?>".toList

def closing : Cover → Text
  | comment => "-->".toList
  | verbatim => sectionClosing
  | instruction => "?>".toList

/-- The mark is met at the end of the body and not before. -/
def Holds (cover : Cover) (body : Text) : Prop :=
  ∀ inner, inner <:+ body → inner ≠ [] → ¬ cover.mark <+: inner ++ cover.closing

end Cover

/-- What counts as a start tag of a text. Unlike a tag that pages are searched for it may have any
name that documents know. -/
structure LooseTag.IsWritten (tag : LooseTag) : Prop where
  start : tag.name.head?.any Xml.isNameStart
  name : ∀ c ∈ tag.name, isLooseNameChar c ∧ c ≠ '<'
  attributes : ∀ attr ∈ tag.attributes, attr.IsLoose
  gap : ∀ c ∈ tag.gap, Text.isBlank c
  last : tag.gap = [] → tag.closes = true → ∀ attr ∈ tag.attributes.getLast?,
    ∀ assigned ∈ attr.assigned, assigned.quote ≠ none

/-- The start tags that a text writes up to a rest of it, in the order written. -/
inductive Writes : Text → List LooseTag → Text → Prop where
  | done (rest : Text) : Writes rest [] rest
  | char {c : Char} {text rest : Text} {tags : List LooseTag} (hc : c ≠ '<')
      (h : Writes text tags rest) :
      Writes (c :: text) tags rest
  | closing {text rest : Text} {tags : List LooseTag} (h : Writes text tags rest) :
      Writes ('<' :: '/' :: text) tags rest
  | declaration {text rest : Text} {tags : List LooseTag} (hcomment : ¬ "--".toList <+: text)
      (hsection : ¬ "[CDATA[".toList <+: text) (h : Writes text tags rest) :
        Writes ('<' :: '!' :: text) tags rest
  | covered (cover : Cover) {body text rest : Text} {tags : List LooseTag}
      (hbody : cover.Holds body)
      (h : Writes text tags rest) : Writes (cover.opening ++ (body ++ (cover.closing ++ text)))
        tags rest
  | opening {tag : LooseTag} {text rest : Text} {tags : List LooseTag} (htag : tag.IsWritten)
      (h : Writes text tags rest) : Writes (tag.source ++ text) (tag :: tags) rest

section Unique

variable {attr other : LooseAttribute} {text rest first second : Text}

/-- A run of a class and what follows it are determined by the text. -/
theorem append_inj_of_class {accepts : Char → Bool} (hfirst : ∀ c ∈ first, accepts c)
    (hsecond : ∀ c ∈ second, accepts c)
    (htext : ∀ c ∈ text.head?, accepts c = false) (hrest : ∀ c ∈ rest.head?, accepts c = false)
    (h : first ++ text = second ++ rest) : first = second ∧ text = rest := by
  obtain ⟨htake, hdrop⟩ := takeWhile_append_of_head? hfirst htext
  obtain ⟨htake', hdrop'⟩ := takeWhile_append_of_head? hsecond hrest
  rw [h] at htake hdrop
  exact ⟨htake.symm.trans htake', hdrop.symm.trans hdrop'⟩

theorem Assigned.raw_append_inj {assigned another : Assigned} (h : assigned.IsLoose)
    (hother : another.IsLoose)
    (hends : assigned.quote = none → ∀ c ∈ text.head?, isLooseValueChar c = false)
    (hends' : another.quote = none → ∀ c ∈ rest.head?, isLooseValueChar c = false)
    (heq : assigned.raw ++ text = another.raw ++ rest) :
    assigned.quote = another.quote ∧ assigned.value = another.value ∧ text = rest := by
  have hquotes : ∀ quote ∈ ['"', '\''], isLooseValueChar quote = false := by decide
  have hapart : ∀ {quoted bare : Assigned} {quote : Char} {text rest : Text}, quoted.IsLoose →
    bare.IsLoose →
      quoted.quote = some quote → bare.quote = none → quoted.raw ++ text ≠ bare.raw ++ rest := by
    intro quoted bare quote text rest hquoted hbare hquote hnone heq
    obtain ⟨hne, hvalue⟩ := hbare.unquoted hnone
    obtain ⟨c, more, hcons⟩ := List.exists_cons_of_ne_nil hne
    rw [raw, raw, hquote, hnone, hcons] at heq
    have hc := hvalue c (hcons ▸ List.mem_cons_self)
    rw [← (List.cons_eq_cons.mp heq).1, hquotes quote (hquoted.quoted quote hquote).1] at hc
    cases hc
  cases hquote : assigned.quote with
  | some quote =>
    cases hquote' : another.quote with
    | none => exact absurd heq (hapart h hother hquote hquote')
    | some quote' =>
      simp only [raw, hquote, hquote', List.cons_append, List.append_assoc, List.nil_append] at heq
      obtain ⟨rfl, heq⟩ := List.cons_eq_cons.mp heq
      have hclass : ∀ {value : Text}, quote ∉ value → ∀ c ∈ value, (c != quote) = true :=
        fun hvalue c hc => bne_iff_ne.mpr fun hsame => hvalue (hsame ▸ hc)
      obtain ⟨hvalue, hrest⟩ := append_inj_of_class (hclass (h.quoted quote hquote).2)
        (hclass (hother.quoted quote hquote').2) (by simp) (by simp) heq
      exact ⟨rfl, hvalue, (List.cons_eq_cons.mp hrest).2⟩
  | none =>
    cases hquote' : another.quote with
    | some quote => exact absurd heq.symm (hapart hother h hquote' hquote)
    | none =>
      simp only [raw, hquote, hquote'] at heq
      obtain ⟨hvalue, hrest⟩ := append_inj_of_class (h.unquoted hquote).2
        (hother.unquoted hquote').2 (hends hquote)
        (hends' hquote') heq
      exact ⟨rfl, hvalue, hrest⟩

theorem Assigned.append_inj {assigned another : Assigned} (h : assigned.IsLoose)
    (hother : another.IsLoose)
    (hends : assigned.quote = none → ∀ c ∈ text.head?, isLooseValueChar c = false)
    (hends' : another.quote = none → ∀ c ∈ rest.head?, isLooseValueChar c = false)
    (heq : assigned.source ++ text = another.source ++ rest) : assigned = another ∧
    text = rest := by
  have hsign : ∀ {text : Text}, ∀ c ∈ ('=' :: text).head?, Text.isBlank c = false := by
    rintro _ c ⟨⟩
    decide
  simp only [source, List.append_assoc, List.cons_append] at heq
  obtain ⟨hleft, heq⟩ := append_inj_of_class h.left hother.left hsign hsign heq
  obtain ⟨hright, heq⟩ := append_inj_of_class h.right hother.right (h.head? text)
    (hother.head? rest)
    (List.cons_eq_cons.mp heq).2
  obtain ⟨hquote, hvalue, hrest⟩ := raw_append_inj h hother hends hends' heq
  cases assigned
  cases another
  cases hleft
  cases hright
  cases hquote
  cases hvalue
  exact ⟨rfl, hrest⟩

theorem Assigned.IsLoose.head?_source {assigned : Assigned} (h : assigned.IsLoose) (rest : Text) :
    ∀ c ∈ (assigned.source ++ rest).head?, isLooseNameChar c = false := by
  rw [source, List.append_assoc]
  have hleft := h.left
  cases hcons : assigned.left with
  | nil =>
    rintro c ⟨⟩
    decide
  | cons d more =>
    rw [hcons] at hleft
    rintro c ⟨⟩
    exact isLooseNameChar_of_isBlank (hleft d List.mem_cons_self)

theorem Assigned.IsLoose.dropWhile_source {assigned : Assigned} (h : assigned.IsLoose)
    (rest : Text) :
    ((assigned.source ++ rest).dropWhile Text.isBlank).head? = some '=' := by
  rw [source, List.append_assoc, List.dropWhile_append_of_pos h.left, List.cons_append,
    List.dropWhile_cons_of_neg (by decide)]
  rfl

theorem LooseAttribute.append_inj (h : attr.IsLoose) (hother : other.IsLoose)
    (hends : attr.EndsBefore text)
    (hends' : other.EndsBefore rest) (heq : attr.source ++ text = other.source ++ rest) :
    attr = other ∧ text = rest := by
  have hafter : ∀ {attr : LooseAttribute} {text : Text}, attr.IsLoose → attr.EndsBefore text →
      ∀ c ∈ ((attr.assigned.map Assigned.source).getD [] ++ text).head?, isLooseNameChar c =
        false := by
    intro attr text h hends
    rw [EndsBefore] at hends
    cases hassigned : attr.assigned with
    | none =>
      rw [hassigned] at hends
      exact hends.1
    | some assigned => exact (h.assigned assigned hassigned).head?_source text
  simp only [source, body, List.append_assoc] at heq
  have hhead := h.head? text
  have hhead' := hother.head? rest
  simp only [body, List.append_assoc] at hhead hhead'
  obtain ⟨hgap, heq⟩ := append_inj_of_class h.gap.2 hother.gap.2
    (fun c hc => isBlank_of_isLooseNameChar (hhead c hc))
      (fun c hc => isBlank_of_isLooseNameChar (hhead' c hc)) heq
  obtain ⟨hname, hleft⟩ := append_inj_of_class h.name.2 hother.name.2 (hafter h hends)
    (hafter hother hends') heq
  obtain ⟨gap, name, assigned⟩ := attr
  obtain ⟨gap', name', assigned'⟩ := other
  simp only [EndsBefore] at hgap hname hleft hends hends'
  subst hgap
  subst hname
  cases assigned with
  | none =>
    cases assigned' with
    | none => exact ⟨rfl, hleft⟩
    | some assigned' =>
      have hsign := (hother.assigned assigned' rfl).dropWhile_source rest
      exact absurd ((congrArg (fun text => (text.dropWhile Text.isBlank).head?) hleft).trans hsign)
        hends.2
  | some assigned =>
    cases assigned' with
    | none =>
      have hsign := (h.assigned assigned rfl).dropWhile_source text
      exact absurd ((congrArg (fun text => (text.dropWhile Text.isBlank).head?) hleft.symm).trans
        hsign) hends'.2
    | some assigned' =>
      obtain ⟨rfl, hrest⟩ :=
        Assigned.append_inj (h.assigned assigned rfl) (hother.assigned assigned' rfl) hends hends'
        hleft
      exact ⟨rfl, hrest⟩

theorem attributesSource_cons_append (attr : LooseAttribute) (attributes : List LooseAttribute)
    (ending : Text) :
    attributesSource (attr :: attributes) ++ ending = attr.source ++
      (attributesSource attributes ++ ending) := by
  simp [attributesSource]

theorem tagEnd_ne_source {gap : Text} {closes : Bool} (hattr : attr.IsLoose)
    (hgap : ∀ c ∈ gap, Text.isBlank c) :
    gap ++ (tagEnd closes ++ text) ≠ attr.source ++ rest := by
  intro heq
  rw [LooseAttribute.source, List.append_assoc] at heq
  have hname := hattr.head? rest
  obtain ⟨-, hleft⟩ := append_inj_of_class hgap hattr.gap.2
    (fun c hc => (LooseTag.head?_tagEnd closes text c hc).1)
    (fun c hc => isBlank_of_isLooseNameChar (hname c hc)) heq
  obtain ⟨c, more, hcons⟩ : ∃ c more, tagEnd closes ++ text = c :: more := by
    cases closes <;> exact ⟨_, _, rfl⟩
  have hnot := (LooseTag.head?_tagEnd closes text c (by rw [hcons]; rfl)).2.1
  rw [hname c (by rw [← hleft, hcons]; rfl)] at hnot
  cases hnot

theorem attributesSource_append_inj {attributes others : List LooseAttribute} {gap gap' : Text}
    {closes closes' : Bool}
    (h : ∀ attr ∈ attributes, attr.IsLoose) (hothers : ∀ attr ∈ others, attr.IsLoose)
    (hgap : ∀ c ∈ gap, Text.isBlank c) (hgap' : ∀ c ∈ gap', Text.isBlank c)
    (hends : ∀ attr ∈ attributes.getLast?, attr.EndsBefore (gap ++ (tagEnd closes ++ text)))
    (hends' : ∀ attr ∈ others.getLast?, attr.EndsBefore (gap' ++ (tagEnd closes' ++ rest)))
    (heq : attributesSource attributes ++ (gap ++ (tagEnd closes ++ text)) =
      attributesSource others ++ (gap' ++ (tagEnd closes' ++ rest))) :
    attributes = others ∧ gap = gap' ∧ tagEnd closes ++ text = tagEnd closes' ++ rest := by
  have hblank := fun closes text c hc => (LooseTag.head?_tagEnd closes text c hc).1
  induction attributes generalizing others with
  | nil =>
    cases others with
    | nil =>
      obtain ⟨hsame, hleft⟩ :=
        append_inj_of_class hgap hgap' (hblank closes text) (hblank closes' rest) heq
      exact ⟨rfl, hsame, hleft⟩
    | cons other others =>
      rw [attributesSource_cons_append] at heq
      exact absurd heq (tagEnd_ne_source (hothers other List.mem_cons_self) hgap)
  | cons attr attributes ih =>
    obtain ⟨hattr, hattributes⟩ := List.forall_mem_cons.mp h
    cases others with
    | nil =>
      rw [attributesSource, attributesSource, List.flatMap_cons, List.append_assoc] at heq
      exact absurd heq.symm (tagEnd_ne_source hattr hgap')
    | cons other others =>
      obtain ⟨hother, htail⟩ := List.forall_mem_cons.mp hothers
      rw [attributesSource_cons_append, attributesSource_cons_append] at heq
      obtain ⟨rfl, hleft⟩ := LooseAttribute.append_inj hattr hother
        (endsBefore_attributesSource hattributes hends)
        (endsBefore_attributesSource htail hends') heq
      obtain ⟨hsame, hrest⟩ := ih hattributes htail
        (fun last hlast => hends last (List.mem_getLast?_cons hlast))
        (fun last hlast => hends' last (List.mem_getLast?_cons hlast)) hleft
      exact ⟨congrArg _ hsame, hrest⟩

/-- A start tag and what follows it are determined by the text. -/
theorem LooseTag.append_inj {tag another : LooseTag} (h : tag.IsWritten)
    (hanother : another.IsWritten)
    (heq : tag.source ++ text = another.source ++ rest) : tag = another ∧ text = rest := by
  simp only [source, List.cons_append, List.append_assoc] at heq
  have hafter : ∀ {tag : LooseTag} {text : Text}, tag.IsWritten →
    ∀ c ∈ (attributesSource tag.attributes ++
      (tag.gap ++ (tagEnd tag.closes ++ text))).head?, isLooseNameChar c = false :=
    fun h => head?_afterName isLooseNameChar_of_isBlank (by decide) h.attributes h.gap _
  obtain ⟨hname, hleft⟩ := append_inj_of_class (fun c hc => (h.name c hc).1)
    (fun c hc => (hanother.name c hc).1)
    (hafter h) (hafter hanother) (List.cons_eq_cons.mp heq).2
  obtain ⟨hattributes, hgap, hend⟩ := attributesSource_append_inj h.attributes hanother.attributes
    h.gap hanother.gap
    (endsBefore_tagEnd h.gap h.last text) (endsBefore_tagEnd hanother.gap hanother.last rest) hleft
  obtain ⟨name, attributes, gap, closes⟩ := tag
  obtain ⟨name', attributes', gap', closes'⟩ := another
  cases hname
  cases hattributes
  cases hgap
  cases closes <;> cases closes' <;> first
    | exact ⟨rfl, by simpa [tagEnd, slash] using hend⟩
    | simp [tagEnd, slash] at hend

end Unique

namespace Cover

variable {cover : Cover} {body other text rest : Text}

theorem holds_nil : cover.Holds [] := fun _ hinner hne => absurd (List.suffix_nil.mp hinner) hne

theorem Holds.of_suffix (h : cover.Holds body) (hother : other <:+ body) : cover.Holds other :=
  fun inner hinner => h inner (hinner.trans hother)

theorem holds_cons {c : Char} : cover.Holds (c :: body) ↔ ¬ cover.mark <+:
    c :: (body ++ cover.closing) ∧ cover.Holds body := by
  constructor
  · intro h
    exact ⟨h _ (List.suffix_refl _) (List.cons_ne_nil c body),
      fun inner hinner => h inner (hinner.trans (List.suffix_cons c body))⟩
  · rintro ⟨hc, h⟩ inner hinner hne
    obtain rfl | hinner := List.suffix_cons_iff.mp hinner
    · exact hc
    · exact h inner hinner hne

/-- The mark does not begin in the body, whatever follows the end. -/
theorem holds_cons_of_not_isPrefix {c : Char} (rest : Text)
    (hc : ¬ cover.mark <+: c :: (body ++ (cover.closing ++ rest))) (h : cover.Holds body) :
    cover.Holds (c :: body) := by
  refine holds_cons.mpr ⟨fun hmark => hc (hmark.trans ?_), h⟩
  rw [List.cons_prefix_cons, ← List.append_assoc]
  exact ⟨rfl, List.prefix_append _ _⟩

theorem Holds.not_isInfix (h : cover.Holds body) (hother : other <:+: body) :
    ¬ cover.mark <:+: other := by
  intro hmark
  obtain ⟨first, last, rfl⟩ := hmark.trans hother
  have hne : cover.mark ≠ [] := by cases cover <;> decide
  refine h (cover.mark ++ last) ⟨first, by simp⟩ (by simp [hne]) ?_
  rw [List.append_assoc]
  exact List.prefix_append _ _

/-- A character that the mark does not hold keeps what is before it apart from what is behind it. -/
theorem Holds.append_cons {c : Char} {front : Text} (hfront : ¬ cover.mark <:+: front)
    (hc : c ∉ cover.mark)
    (h : cover.Holds (c :: body)) : cover.Holds (front ++ c :: body) := by
  induction front with
  | nil => exact h
  | cons d front ih =>
    rw [List.cons_append, holds_cons]
    refine ⟨fun hmark => hfront ?_, ih fun hmark =>
      hfront (hmark.trans (List.suffix_cons d front).isInfix)⟩
    rw [List.append_assoc, List.cons_append, ← List.cons_append] at hmark
    exact (Text.isPrefix_stop hc hmark).isInfix

/-- What has no beginning of a mark may stand before the body. -/
theorem Holds.append_of_not_mem (h : cover.Holds body) {passed : Text}
    (hpassed : ∀ c ∈ cover.mark.head?, c ∉ passed) :
    cover.Holds (passed ++ body) := by
  induction passed with
  | nil => exact h
  | cons c passed ih =>
    refine holds_cons.mpr ⟨fun hmark => ?_, ih fun d hd hmem =>
      hpassed d hd (List.mem_cons_of_mem _ hmem)⟩
    have hfirst : cover.mark.head? = some c := by
      obtain ⟨more, hmore⟩ := hmark
      have hne : cover.mark ≠ [] := by cases cover <;> decide
      rw [← List.head?_append_of_ne_nil _ hne, hmore]
      rfl
    exact hpassed c hfirst List.mem_cons_self

theorem Holds.cons {c : Char} (hc : cover.mark.head? ≠ some c) (h : cover.Holds body) :
    cover.Holds (c :: body) := by
  have hfree : ∀ d ∈ cover.mark.head?, d ∉ [c] :=
    fun d hd hmem => hc (List.mem_singleton.mp hmem ▸ hd)
  exact h.append_of_not_mem hfree

/-- A character that can only end the mark keeps a text that ends with it apart from what is behind
it. -/
theorem Holds.append_concat {c : Char} {front : Text} (hfront : ¬ cover.mark <:+: front ++ [c])
    (hc : c ∉ cover.mark.dropLast)
    (hhead : cover.mark.head? ≠ some c) (h : cover.Holds body) :
    cover.Holds (front ++ c :: body) := by
  induction front with
  | nil => exact h.cons hhead
  | cons d front ih =>
    rw [List.cons_append, holds_cons]
    refine ⟨fun hmark => ?_, ih fun hmark => hfront (hmark.trans (List.suffix_cons d _).isInfix)⟩
    have hsplit : d :: (front ++ c :: body ++ cover.closing) = (d :: front ++ [c]) ++
      (body ++ cover.closing) := by simp
    rw [hsplit] at hmark
    obtain ⟨left, hleft⟩ := hmark
    obtain ⟨more, hmore, -⟩ | ⟨more, hmore, -⟩ := List.append_eq_append_iff.mp hleft
    · exact hfront (hmore ▸ (List.prefix_append _ _).isInfix)
    · cases more with
      | nil => exact hfront (by simp [hmore])
      | cons e more =>
        refine hc ?_
        rw [hmore, List.dropLast_append_of_ne_nil (List.cons_ne_nil e more)]
        simp

theorem mark_isPrefix (cover : Cover) : cover.mark <+: cover.closing := by cases cover <;> decide

theorem holds_apart (h : cover.Holds other) {more : Text} (hmore : more ≠ [])
    (hother : other = body ++ more) :
    cover.closing ++ text ≠ more ++ (cover.closing ++ rest) := by
  intro heq
  have hmark : cover.mark <+: more ++ cover.closing ++ rest := by
    rw [List.append_assoc, ← heq]
    exact cover.mark_isPrefix.trans (List.prefix_append _ _)
  have hlength := cover.mark_isPrefix.length_le
  refine h more (hother ▸ List.suffix_append body more) hmore
    (List.prefix_of_prefix_length_le hmark (List.prefix_append _ rest) ?_)
  rw [List.length_append]
  omega

/-- The body and what follows its end are determined by the text. -/
theorem append_inj (h : cover.Holds body) (hother : cover.Holds other)
    (heq : body ++ (cover.closing ++ text) = other ++ (cover.closing ++ rest)) :
    body = other ∧ text = rest := by
  obtain ⟨more, hmore, hleft⟩ | ⟨more, hmore, hleft⟩ := List.append_eq_append_iff.mp heq
  · obtain rfl : more = [] := by_contra fun hne => holds_apart hother hne hmore hleft
    rw [List.append_nil] at hmore
    exact ⟨hmore.symm, List.append_cancel_left hleft⟩
  · obtain rfl : more = [] := by_contra fun hne => holds_apart h hne hmore hleft
    rw [List.append_nil] at hmore
    exact ⟨hmore, (List.append_cancel_left hleft).symm⟩

theorem opening_append (cover : Cover) (text : Text) : ∃ mark more, mark ∈ ['!', '?'] ∧
    cover.opening ++ text = '<' :: mark :: (more ++ text) := by
  cases cover
  · exact ⟨'!', "--".toList, by decide, rfl⟩
  · exact ⟨'!', "[CDATA[".toList, by decide, rfl⟩
  · exact ⟨'?', [], by decide, rfl⟩

theorem begins_of_opening {more : Text} (h : '<' :: '!' :: more = cover.opening ++ text) :
    "--".toList <+: more ∨ "[CDATA[".toList <+: more := by
  cases cover with
  | comment => exact .inl ⟨text, (List.cons_eq_cons.mp (List.cons_eq_cons.mp h).2).2.symm⟩
  | verbatim => exact .inr ⟨text, (List.cons_eq_cons.mp (List.cons_eq_cons.mp h).2).2.symm⟩
  | instruction => exact absurd (List.cons_eq_cons.mp (List.cons_eq_cons.mp h).2).1 (by decide)

theorem opening_inj {another : Cover} (h : cover.opening ++ text = another.opening ++ rest) :
    cover = another ∧ text = rest := by
  have hsecond := congrArg (fun text : Text => text[1]?) h
  have hthird := congrArg (fun text : Text => text[2]?) h
  cases cover with
  | comment =>
    cases another with
    | comment => exact ⟨rfl, List.append_cancel_left h⟩
    | verbatim => exact absurd (Option.some.inj hthird) (by decide)
    | instruction => exact absurd (Option.some.inj hsecond) (by decide)
  | verbatim =>
    cases another with
    | comment => exact absurd (Option.some.inj hthird) (by decide)
    | verbatim => exact ⟨rfl, List.append_cancel_left h⟩
    | instruction => exact absurd (Option.some.inj hsecond) (by decide)
  | instruction =>
    cases another with
    | comment => exact absurd (Option.some.inj hsecond) (by decide)
    | verbatim => exact absurd (Option.some.inj hsecond) (by decide)
    | instruction => exact ⟨rfl, List.append_cancel_left h⟩

end Cover

variable {tag : LooseTag} {text rest : Text} {tags others : List LooseTag}

theorem ne_of_isTagNameChar {c mark : Char} (h : isTagNameChar c)
    (hmark : isTagNameChar mark = false) : c ≠ mark := by
  rintro rfl
  rw [h] at hmark
  cases hmark

theorem isLooseNameChar_of_isTagNameChar {c : Char} (h : isTagNameChar c) :
    isLooseNameChar c = true := by
  have hmarks : ∀ mark ∈ "=/>\"'".toList, isTagNameChar mark = false := by decide
  rw [isLooseNameChar, isBlank_of_isTagNameChar h, Bool.not_false, Bool.true_and, Bool.not_eq_true',
    ← Bool.not_eq_true, List.contains_iff_mem]
  exact fun hmem => ne_of_isTagNameChar h (hmarks c hmem) rfl

theorem LooseTag.IsLoose.isWritten (h : tag.IsLoose) : tag.IsWritten where
  start := by
    obtain ⟨c, more, hcons, hc, -⟩ := exists_cons_of_isTagName h.name
    rw [hcons]
    exact isNameStart_of_isTagNameStart hc
  name := by
    obtain ⟨-, -, -, -, hchars⟩ := exists_cons_of_isTagName h.name
    exact fun c hc => ⟨isLooseNameChar_of_isTagNameChar (hchars c hc),
      ne_of_isTagNameChar (hchars c hc) (by decide)⟩
  attributes := h.attributes
  gap := h.gap
  last := h.last

namespace Writes

theorem append {middle : Text} (h : Writes text tags middle) (hmiddle : Writes middle others rest) :
    Writes text (tags ++ others) rest := by
  induction h with
  | done => exact hmiddle
  | char hc _ ih => exact .char hc (ih hmiddle)
  | closing _ ih => exact .closing (ih hmiddle)
  | declaration hcomment hsection _ ih => exact .declaration hcomment hsection (ih hmiddle)
  | covered cover hbody _ ih => exact .covered cover hbody (ih hmiddle)
  | opening htag _ ih => exact .opening htag (ih hmiddle)

/-- Characters outside of tags write none. -/
theorem chars {passed : Text} (hpassed : '<' ∉ passed) (h : Writes text tags rest) :
    Writes (passed ++ text) tags rest := by
  induction passed with
  | nil => exact h
  | cons c passed ih =>
    rw [List.mem_cons, not_or] at hpassed
    exact .char (Ne.symm hpassed.1) (ih hpassed.2)

/-- The first two characters tell what part of a text begins with a bracket. -/
theorem cases_of_bracket (h : Writes ('<' :: text) tags []) :
    (∃ more, text = '/' :: more ∧ Writes more tags []) ∨
    (∃ more, text = '!' :: more ∧ ¬ "--".toList <+: more ∧ ¬ "[CDATA[".toList <+: more ∧
    Writes more tags []) ∨
    (∃ cover body more, '<' :: text = Cover.opening cover ++ (body ++ (cover.closing ++ more)) ∧
    cover.Holds body ∧
      Writes more tags []) ∨
    (∃ tag more others, '<' :: text = LooseTag.source tag ++ more ∧ tag.IsWritten ∧
    tags = tag :: others ∧
      Writes more others []) := by
  generalize hwhole : '<' :: text = whole at h
  generalize hrest : ([] : Text) = rest at h
  cases h with
  | done =>
    rw [← hrest] at hwhole
    cases hwhole
  | char hc _ => exact absurd (List.cons_eq_cons.mp hwhole).1.symm hc
  | closing h => exact .inl ⟨_, (List.cons_eq_cons.mp hwhole).2, hrest ▸ h⟩
  | declaration hcomment hsection h =>
      exact .inr (.inl ⟨_, (List.cons_eq_cons.mp hwhole).2, hcomment, hsection, hrest ▸ h⟩)
  | covered cover hbody h => exact .inr (.inr (.inl ⟨cover, _, _, rfl, hbody, hrest ▸ h⟩))
  | opening htag h => exact .inr (.inr (.inr ⟨_, _, _, rfl, htag, rfl, hrest ▸ h⟩))

theorem of_char {c : Char} (hc : c ≠ '<') (h : Writes (c :: text) tags []) :
    Writes text tags [] := by
  generalize hwhole : c :: text = whole at h
  generalize hrest : ([] : Text) = rest at h
  cases h with
  | done =>
    rw [← hrest] at hwhole
    cases hwhole
  | char _ h =>
    obtain rfl := (List.cons_eq_cons.mp hwhole).2
    exact hrest ▸ h
  | closing _ => exact absurd (List.cons_eq_cons.mp hwhole).1 hc
  | declaration _ _ _ => exact absurd (List.cons_eq_cons.mp hwhole).1 hc
  | covered cover _ _ =>
    obtain ⟨mark, more, -, hopening⟩ := cover.opening_append _
    exact absurd (List.cons_eq_cons.mp (hwhole.trans hopening)).1 hc
  | opening _ _ => exact absurd (List.cons_eq_cons.mp hwhole).1 hc

theorem of_chars {passed : Text} (hpassed : '<' ∉ passed) (h : Writes (passed ++ text) tags []) :
    Writes text tags [] := by
  induction passed with
  | nil => exact h
  | cons c passed ih =>
    rw [List.mem_cons, not_or] at hpassed
    exact ih hpassed.2 (h.of_char (Ne.symm hpassed.1))

theorem ne_of_isWritten (h : tag.IsWritten) (rest : Text) :
    ∃ c more, tag.source ++ rest = '<' :: c :: more ∧
    c ∉ ['/', '!', '?'] := by
  have hstart := h.start
  cases hname : tag.name with
  | nil =>
    rw [hname] at hstart
    cases hstart
  | cons c more =>
    rw [hname] at hstart
    refine ⟨c, more ++ (attributesSource tag.attributes ++ (tag.gap ++ tagEnd tag.closes)) ++ rest,
      ?_, ?_⟩
    · rw [LooseTag.source, hname]
      rfl
    · intro hmem
      have hnone : ∀ c ∈ ['/', '!', '?'], Xml.isNameStart c = false := by decide
      rw [List.head?_cons, Option.any_some, hnone c hmem] at hstart
      cases hstart

theorem of_closing (h : Writes ('<' :: '/' :: text) tags []) : Writes text tags [] := by
  obtain ⟨more, hmore, hrest⟩ | ⟨more, hmore, -⟩ | ⟨cover, body, more, hmore, -⟩
    | ⟨tag, more, others, hmore, htag, -⟩ :=
    h.cases_of_bracket
  · exact (List.cons_eq_cons.mp hmore).2 ▸ hrest
  · cases hmore
  · obtain ⟨mark, _, hmark, hopening⟩ := cover.opening_append (body ++ (cover.closing ++ more))
    obtain rfl := (List.cons_eq_cons.mp (List.cons_eq_cons.mp (hmore.trans hopening)).2).1
    exact absurd hmark (by decide)
  · obtain ⟨c, _, hsource, hc⟩ := ne_of_isWritten htag more
    obtain rfl := (List.cons_eq_cons.mp (List.cons_eq_cons.mp (hmore.trans hsource)).2).1
    exact absurd (by decide) hc

theorem of_declaration (hcomment : ¬ "--".toList <+: text) (hsection : ¬ "[CDATA[".toList <+: text)
    (h : Writes ('<' :: '!' :: text) tags []) : Writes text tags [] := by
  obtain ⟨more, hmore, -⟩ | ⟨more, hmore, -, -, hrest⟩ | ⟨cover, body, more, hmore, -⟩ |
    ⟨tag, more, others, hmore, htag, -⟩ := h.cases_of_bracket
  · cases hmore
  · exact (List.cons_eq_cons.mp hmore).2 ▸ hrest
  · exact absurd (Cover.begins_of_opening hmore) (not_or.mpr ⟨hcomment, hsection⟩)
  · obtain ⟨c, _, hsource, hc⟩ := ne_of_isWritten htag more
    obtain rfl := (List.cons_eq_cons.mp (List.cons_eq_cons.mp (hmore.trans hsource)).2).1
    exact absurd (by decide) hc

theorem of_covered {cover : Cover} {body : Text} (hbody : cover.Holds body)
    (h : Writes (cover.opening ++ (body ++ (cover.closing ++ text))) tags []) :
    Writes text tags [] := by
  obtain ⟨mark, after, hmark, hopening⟩ := cover.opening_append (body ++ (cover.closing ++ text))
  have hbracket := hopening ▸ h
  obtain ⟨more, hmore, -⟩ | ⟨more, hmore, hcomment, hsection, -⟩ | ⟨another, other, more, hmore,
    hother, hrest⟩ |
    ⟨tag, more, others, hmore, htag, -⟩ := hbracket.cases_of_bracket
  · obtain rfl := (List.cons_eq_cons.mp hmore).1
    exact absurd hmark (by decide)
  · rw [hmore] at hopening
    exact absurd (Cover.begins_of_opening hopening.symm) (not_or.mpr ⟨hcomment, hsection⟩)
  · obtain ⟨rfl, hleft⟩ := Cover.opening_inj (hopening.trans hmore)
    exact (Cover.append_inj hbody hother hleft).2 ▸ hrest
  · obtain ⟨c, _, hsource, hc⟩ := ne_of_isWritten htag more
    obtain rfl := (List.cons_eq_cons.mp (List.cons_eq_cons.mp (hmore.trans hsource)).2).1
    exact absurd (List.mem_cons_of_mem _ hmark) hc

theorem of_opening (htag : tag.IsWritten) (h : Writes (tag.source ++ text) tags []) :
    ∃ others, tags = tag :: others ∧ Writes text others [] := by
  obtain ⟨c, after, hsource, hc⟩ := ne_of_isWritten htag text
  have hbracket := hsource ▸ h
  obtain ⟨more, hmore, -⟩ | ⟨more, hmore, -⟩ | ⟨cover, body, more, hmore, -⟩ |
    ⟨another, more, others, hmore, hanother, htags, hrest⟩ := hbracket.cases_of_bracket
  · obtain rfl := (List.cons_eq_cons.mp hmore).1
    exact absurd (by decide) hc
  · obtain rfl := (List.cons_eq_cons.mp hmore).1
    exact absurd (by decide) hc
  · obtain ⟨mark, _, hmark, hopening⟩ := cover.opening_append (body ++ (cover.closing ++ more))
    obtain rfl := (List.cons_eq_cons.mp (List.cons_eq_cons.mp (hmore.trans hopening)).2).1
    exact absurd (List.mem_cons_of_mem _ hmark) hc
  · obtain ⟨rfl, rfl⟩ := LooseTag.append_inj htag hanother (hsource.trans hmore)
    exact ⟨others, htags, hrest⟩

theorem unique (h : Writes text tags []) (hothers : Writes text others []) : tags = others := by
  generalize hrest : ([] : Text) = rest at h
  induction h generalizing others with
  | done rest =>
    subst hrest
    generalize hwhole : ([] : Text) = whole at hothers
    cases hothers with
    | done => rfl
    | covered cover _ _ =>
      obtain ⟨_, _, -, hopening⟩ := cover.opening_append _
      cases hwhole.trans hopening
    | _ => cases hwhole
  | char hc _ ih => exact ih (hothers.of_char hc) hrest
  | closing _ ih => exact ih hothers.of_closing hrest
  | declaration hcomment hsection _ ih => exact ih (hothers.of_declaration hcomment hsection) hrest
  | covered cover hbody _ ih => exact ih (hothers.of_covered hbody) hrest
  | opening htag _ ih =>
    obtain ⟨more, rfl, hmore⟩ := hothers.of_opening htag
    rw [ih hmore hrest]

end Writes
end Visualforce.Markup
