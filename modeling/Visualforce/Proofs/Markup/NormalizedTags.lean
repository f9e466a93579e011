import Mathlib.Data.List.Forall2
import Visualforce.Proofs.Markup.NormalForm
import Visualforce.Proofs.Markup.Visible
import Visualforce.Proofs.Xml.AcceptedElement

/-! # Start tags in normal form

A stretch of markup outside of sections is written in normal form tag by tag, and the tags keep
their names and those of their attributes. What comments and instructions cover stays covered,
although tags in them are written in normal form as well.
-/
namespace Visualforce.Markup
open Pattern Cursor

variable {attr : LooseAttribute} {attributes : List LooseAttribute} {tag : LooseTag}
    {tags : List LooseTag}
variable {cover : Cover} {body text rest value : Text} {allow : Bool}

namespace LooseAttribute

/-- The attribute after one space, with its value between quotes. -/
def normalized (attr : LooseAttribute) : LooseAttribute :=
  ⟨[' '], attr.name, some ⟨[], [], some (quoteOf attr.value), escapeOpenings attr.value⟩⟩

theorem source_normalized (attr : LooseAttribute) :
    attr.normalized.source = attr.attribute.quoted escapeOpenings := by
  simp [normalized, source, body, Assigned.source, Assigned.raw, Attribute.quoted,
    LooseAttribute.attribute]

theorem IsLoose.normalized (h : attr.IsLoose) : attr.normalized.IsLoose where
  gap := ⟨List.cons_ne_nil _ _, List.forall_mem_singleton.mpr (by decide)⟩
  name := h.name
  assigned := by
    rintro _ ⟨⟩
    refine ⟨by simp, by simp, ?_, by simp⟩
    rintro quote ⟨⟩
    refine ⟨quoteOf_mem attr.value, fun hmem => quoteOf_not_mem h ?_⟩
    obtain ⟨c, hc, hquote⟩ := List.mem_flatMap.mp hmem
    split_ifs at hquote
    · have hfree : ∀ quote ∈ ['"', '\''], quote ∉ "&lt;".toList := by decide
      exact absurd hquote (hfree _ (quoteOf_mem attr.value))
    · rwa [List.mem_singleton.mp hquote]

end LooseAttribute

namespace LooseTag

/-- The tag in normal form. -/
def normalized (tag : LooseTag) : LooseTag :=
  ⟨tag.name, tag.attributes.map LooseAttribute.normalized, if tag.attributes.isEmpty then tag.gap
    else [], tag.closes⟩

theorem source_normalized (tag : LooseTag) : tag.normalized.source = tag.normal escapeOpenings := by
  have hattributes : attributesSource (tag.attributes.map LooseAttribute.normalized) =
      tag.attributes.flatMap (·.attribute.quoted escapeOpenings) := by
    rw [attributesSource, List.flatMap_map]
    exact List.flatMap_congr fun attr _ => attr.source_normalized
  rw [source, normalized, hattributes, normal]

theorem IsLoose.normalized (h : tag.IsLoose) : tag.normalized.IsLoose where
  name := h.name
  attributes := List.forall_mem_map.mpr fun attr hattr => (h.attributes attr hattr).normalized
  gap := by
    rw [LooseTag.normalized]
    split_ifs
    · exact h.gap
    · exact List.forall_mem_nil _
  last := by
    rintro - - attr hattr assigned hassigned
    obtain ⟨other, -, rfl⟩ := List.mem_map.mp (List.mem_of_getLast? hattr)
    cases hassigned
    exact Option.some_ne_none _

theorem names_normalized (tag : LooseTag) : tag.normalized.names = tag.names := by
  simp [names, normalized, LooseAttribute.normalized]

end LooseTag

theorem exists_yields_looseTag (allow : Bool) (h : tag.IsLoose) :
    ∃ other, (other = tag ∨ other = tag.normalized) ∧
    Yields startTagPattern (written (normalStartTag allow)) anything tag.source other.source := by
  have hyields := yields_normalStartTag allow h
  split_ifs at hyields
  · exact ⟨_, .inr rfl, tag.source_normalized ▸ hyields⟩
  · exact ⟨_, .inl rfl, hyields⟩

theorem Cover.not_isInfix_escapeOpenings {front : Text} (h : ¬ cover.mark <:+: front ++ value) :
    ¬ cover.mark <:+: front ++ escapeOpenings value := by
  induction value generalizing front with
  | nil => exact h
  | cons c value ih =>
    rw [escapeOpenings_cons]
    split_ifs with hc
    · have hescape : "&lt;".toList ++ escapeOpenings value =
        '&' :: ("lt".toList ++ ';' :: escapeOpenings value) := rfl
      have hmarks : '&' ∉ cover.mark ∧ ';' ∉ cover.mark ∧ ¬ cover.mark <:+: "lt".toList := by
        cases cover <;> decide
      rw [hescape]
      intro hmark
      obtain hfront | hmark := Text.isInfix_append_cons hmarks.1 hmark
      · exact h (hfront.trans (List.prefix_append _ _).isInfix)
      · obtain hname | hmark := Text.isInfix_append_cons hmarks.2.1 hmark
        · exact hmarks.2.2 hname
        · have hvalue : ¬ cover.mark <:+: [] ++ value := fun hvalue =>
            h (hvalue.trans ((List.suffix_cons c value).trans (List.suffix_append front _)).isInfix)
          exact ih hvalue hmark
    · rw [← List.append_assoc]
      exact ih (by simpa using h)

/-- Attributes in normal form may stand in a stretch that covers their names and values. -/
theorem Cover.Holds.attributesSource_normalized
    (hparts : ∀ attr ∈ attributes, ¬ cover.mark <:+: attr.name ∧ ¬ cover.mark <:+: attr.value)
    (h : cover.Holds rest) :
    cover.Holds (attributesSource (attributes.map LooseAttribute.normalized) ++ rest) := by
  have hmarks : ∀ c ∈ [' ', '=', '"', '\''], c ∉ cover.mark := by cases cover <;> decide
  induction attributes with
  | nil => exact h
  | cons attr attributes ih =>
    obtain ⟨⟨hname, hvalue⟩, hothers⟩ := List.forall_mem_cons.mp hparts
    let left := attributesSource (attributes.map LooseAttribute.normalized) ++ rest
    let quote := quoteOf attr.value
    have hcons : ∀ {c : Char} {body : Text}, c ∉ cover.mark → cover.Holds body →
      cover.Holds (c :: body) :=
      fun hc hbody => hbody.cons fun hhead => hc (List.mem_of_mem_head? hhead)
    have hquote : quote ∉ cover.mark :=
      hmarks _ (List.mem_cons_of_mem _ (List.mem_cons_of_mem _ (quoteOf_mem attr.value)))
    have hescaped : ¬ cover.mark <:+: [] ++ escapeOpenings attr.value :=
      not_isInfix_escapeOpenings hvalue
    have hvalued : cover.Holds (escapeOpenings attr.value ++ quote :: left) :=
      .append_cons hescaped hquote (hcons hquote (ih hothers))
    have hnamed :
      cover.Holds (attr.name ++ '=' :: quote :: (escapeOpenings attr.value ++ quote :: left)) :=
      .append_cons hname (hmarks _ (by decide))
        (hcons (hmarks _ (by decide)) (hcons hquote hvalued))
    rw [List.map_cons, attributesSource_cons_append, LooseAttribute.source_normalized]
    have hsource : attr.attribute.quoted escapeOpenings ++ left =
        ' ' :: (attr.name ++ '=' :: quote :: (escapeOpenings attr.value ++ quote :: left)) := by
      simp [Attribute.quoted, LooseAttribute.attribute, quote]
    rw [hsource]
    exact hcons (hmarks _ (by decide)) hnamed

theorem LooseAttribute.isInfix_source (attr : LooseAttribute) :
    attr.name <:+: attr.source ∧ (attr.value <:+: attr.source ∨ attr.value = "true".toList) := by
  rw [source, LooseAttribute.body, value]
  refine ⟨⟨attr.gap, _, List.append_assoc _ _ _⟩, ?_⟩
  cases attr.assigned with
  | none => exact .inr rfl
  | some assigned =>
    have hraw : assigned.value <:+: assigned.raw := by
      rw [Assigned.raw]
      cases assigned.quote with
      | none => exact List.infix_refl _
      | some quote => exact ⟨[quote], [quote], by simp⟩
    refine .inl (hraw.trans ⟨attr.gap ++ attr.name ++ assigned.left ++ '=' :: assigned.right, [],
      ?_⟩)
    simp [Assigned.source]

/-- A tag in normal form may stand in a stretch that covers the tag. -/
theorem Cover.Holds.source_normalized (htag : ¬ cover.mark <:+: tag.source) (h : cover.Holds rest) :
    cover.Holds (tag.source ++ rest) ∧ cover.Holds (tag.normalized.source ++ rest) := by
  have hend : '>' ∉ cover.mark.dropLast ∧ ∀ c ∈ ['<', '/', '>'], cover.mark.head? ≠ some c := by
    cases cover <;> decide
  have hsource : cover.Holds (tag.source ++ rest) := by
    have hconcat : tag.source =
      '<' :: (tag.name ++ (attributesSource tag.attributes ++ (tag.gap ++ slash tag.closes))) ++
      ['>'] := by
      simp [LooseTag.source, tagEnd]
    rw [hconcat] at htag ⊢
    rw [List.append_assoc]
    exact .append_concat htag hend.1 (hend.2 _ (by decide)) h
  refine ⟨hsource, ?_⟩
  cases hattributes : tag.attributes with
  | nil =>
    have hsame : tag.normalized.source = tag.source := by
      simp [LooseTag.normalized, LooseTag.source, hattributes]
    rwa [hsame]
  | cons attr attributes =>
    have hparts : ∀ attr ∈ tag.attributes, ¬ cover.mark <:+: attr.name ∧ ¬ cover.mark <:+:
      attr.value := by
      intro attr hattr
      have hinside : attr.source <:+: tag.source := by
        have hall : attr.source <:+: attributesSource tag.attributes := by
          rw [attributesSource, List.flatMap_def]
          exact List.infix_of_mem_flatten (List.mem_map_of_mem hattr)
        exact hall.trans ⟨'<' :: tag.name, tag.gap ++ tagEnd tag.closes, by simp [LooseTag.source]⟩
      obtain ⟨hname, hvalue⟩ := attr.isInfix_source
      refine ⟨fun hmark => htag (hmark.trans (hname.trans hinside)), ?_⟩
      obtain hvalue | hvalue := hvalue
      · exact fun hmark => htag (hmark.trans (hvalue.trans hinside))
      · rw [hvalue]
        cases cover <;> decide
    have hname : ¬ cover.mark <:+: tag.name := fun hmark => htag (hmark.trans ⟨['<'], _, rfl⟩)
    have hlast : cover.Holds (tagEnd tag.closes ++ rest) := by
      have hbracket := h.cons (hend.2 '>' (by decide))
      cases tag.closes with
      | false => exact hbracket
      | true => exact hbracket.cons (hend.2 '/' (by decide))
    have hall := hlast.attributesSource_normalized hparts
    obtain ⟨more, hmore⟩ :
      ∃ more, attributesSource (tag.attributes.map LooseAttribute.normalized) ++
      (tagEnd tag.closes ++ rest) =
        ' ' :: more := by
      rw [hattributes]
      exact ⟨_, rfl⟩
    have hnormal : tag.normalized.source ++ rest = '<' :: (tag.name ++ ' ' :: more) := by
      rw [← hmore]
      simp [LooseTag.normalized, LooseTag.source, hattributes]
    have hblank : ' ' ∉ cover.mark := by cases cover <;> decide
    rw [hmore] at hall
    rw [hnormal]
    exact .cons (hend.2 _ (by decide)) (.append_cons hname hblank hall)

/-- A text in which whatever looks like a start tag is one. -/
inductive HidesTags : Text → Prop where
  | nil : HidesTags []
  | char {c : Char} {text : Text} (hc : c = '<' → ∀ d ∈ text.head?, isTagNameStart d = false)
      (h : HidesTags text) :
      HidesTags (c :: text)
  | tag {tag : LooseTag} {text : Text} (htag : tag.IsLoose) (h : HidesTags text) :
      HidesTags (tag.source ++ text)

/-- The start tags of a stretch of markup outside of sections. What looks like a start tag in a
comment or an instruction ends in it. -/
inductive WritesOpenly : Text → List LooseTag → Prop where
  | nil : WritesOpenly [] []
  | char {c : Char} {text : Text} {tags : List LooseTag} (hc : c ≠ '<')
      (h : WritesOpenly text tags) :
      WritesOpenly (c :: text) tags
  | closing {text : Text} {tags : List LooseTag} (h : WritesOpenly text tags) :
      WritesOpenly ('<' :: '/' :: text) tags
  | declaration {text : Text} {tags : List LooseTag} (hcomment : ¬ "--".toList <+: text)
      (hsection : ¬ "[CDATA[".toList <+: text) (h : WritesOpenly text tags) :
        WritesOpenly ('<' :: '!' :: text) tags
  | covered (cover : Cover) {body text : Text} {tags : List LooseTag} (hcover : cover ≠ .verbatim)
      (hbody : cover.Holds body)
      (hhides : HidesTags body) (h : WritesOpenly text tags) :
      WritesOpenly (cover.opening ++ (body ++ (cover.closing ++ text))) tags
  | tag {tag : LooseTag} {text : Text} {tags : List LooseTag} (htag : tag.IsLoose)
      (hnames : ∀ attr ∈ tag.attributes, '&' ∉ attr.name) (h : WritesOpenly text tags) :
      WritesOpenly (tag.source ++ text) (tag :: tags)

theorem WritesOpenly.of_not_mem (h : '<' ∉ text) : WritesOpenly text [] := by
  induction text with
  | nil => exact .nil
  | cons c text ih =>
    obtain ⟨hc, htext⟩ := List.ne_and_not_mem_of_not_mem_cons h
    exact .char hc.symm (ih htext)

/-- What is covered stays covered when the tags in it are written in normal form. -/
theorem HidesTags.exists_scans (allow : Bool) (h : HidesTags body) :
    ∃ result, result.head? = body.head? ∧
    (∀ cover : Cover, cover ≠ .verbatim → cover.Holds body → cover.Holds result) ∧
      ∀ before rest, (∀ c ∈ rest.head?, isTagNameStart c = false) → ∃ after,
        Scans startTagPattern (written (normalStartTag allow)) (between before (body ++ rest))
        result (between after rest) := by
  induction h with
  | nil => exact ⟨[], rfl, fun _ _ hbody => hbody, fun before rest _ => ⟨before, .done _⟩⟩
  | @char c text hc _ ih =>
    obtain ⟨result, hhead, hholds, hscans⟩ := ih
    refine ⟨c :: result, rfl, fun cover hcover hbody => ?_, fun before rest hrest => ?_⟩
    · obtain ⟨hmark, hbody⟩ := Cover.holds_cons.mp hbody
      refine Cover.holds_cons.mpr ⟨fun hbegins => hmark ?_, hholds cover hcover hbody⟩
      have hnext : (result ++ cover.closing).head? = (text ++ cover.closing).head? := by
        rw [List.head?_append, List.head?_append, hhead]
      have hpair : ∀ first second : Char, cover.mark = [first, second] → cover.mark <+:
        c :: (text ++ cover.closing) := by
        intro first second hpair
        rw [hpair, List.cons_prefix_cons] at hbegins ⊢
        obtain ⟨hfirst, more, hmore⟩ := hbegins
        rw [← hmore] at hnext
        obtain ⟨other, hother⟩ := List.head?_eq_some_iff.mp hnext.symm
        exact ⟨hfirst, other, hother.symm⟩
      cases cover with
      | comment => exact hpair _ _ rfl
      | verbatim => exact absurd rfl hcover
      | instruction => exact hpair _ _ rfl
    · obtain ⟨after, hscan⟩ := hscans (some c) rest hrest
      refine ⟨after, .plain rfl ?_ hscan⟩
      by_cases hbracket : c = '<'
      · subst hbracket
        refine matchAt_startTagPattern_of_head? ?_
        cases text with
        | nil => exact hrest
        | cons d text => exact hc rfl
      · refine begins_startTagPattern.matchAt ?_
        rintro d ⟨⟩
        exact beq_false_of_ne hbracket
  | @tag tag text htag _ ih =>
    obtain ⟨result, hhead, hholds, hscans⟩ := ih
    obtain ⟨other, hother, hyields⟩ := exists_yields_looseTag allow htag
    refine ⟨other.source ++ result, ?_, fun cover hcover hbody => ?_, fun before rest hrest => ?_⟩
    · rfl
    · have hsource := hbody.not_isInfix (List.prefix_append _ _).isInfix
      have hkeeps :=
        (hholds cover hcover (hbody.of_suffix (List.suffix_append _ _))).source_normalized hsource
      rcases hother with rfl | rfl
      · exact hkeeps.1
      · exact hkeeps.2
    · obtain ⟨middle, hscan⟩ := hyields.scans before (text ++ rest) trivial
      obtain ⟨after, hscan'⟩ := hscans middle rest hrest
      rw [List.append_assoc]
      exact ⟨after, hscan.append hscan'⟩

theorem WritesOpenly.not_mem_names (h : WritesOpenly text tags) :
    ∀ tag ∈ tags, ∀ name ∈ tag.names, '&' ∉ name := by
  induction h with
  | nil => exact List.forall_mem_nil _
  | tag htag hnames _ ih =>
    exact List.forall_mem_cons.mpr
      ⟨List.forall_mem_cons.mpr ⟨not_mem_of_isTagName htag.name (by decide),
        List.forall_mem_map.mpr hnames⟩, ih⟩
  | _ => assumption

/-- A stretch of markup is written in normal form tag by tag. What stands before its first bracket
stays. -/
theorem WritesOpenly.exists_yields (allow : Bool) (h : WritesOpenly text tags) : ∃ result others,
    Yields startTagPattern (written (normalStartTag allow)) anything text result ∧
    Writes result others [] ∧
      others.map LooseTag.names = tags.map LooseTag.names ∧ ∀ piece, '<' ∉ piece →
        piece <+: result → piece <+: text := by
  have hplain : ∀ {passed text result : Text},
    (∀ before rest, Quiet startTagPattern before passed rest) →
      Yields startTagPattern (written (normalStartTag allow)) anything text result →
        Yields startTagPattern (written (normalStartTag allow)) anything (passed ++ text)
          (passed ++ result) :=
    fun hquiet hyields => .append (.written_of_quiet (fun _ _ => trivial) fun before rest _ =>
      hquiet before rest) hyields
  have hbracket : ∀ {more piece other : Text}, '<' ∉ piece → piece <+: '<' :: more →
    piece <+: other := by
    intro more piece other hpiece hbegins
    cases piece with
    | nil => exact List.nil_prefix
    | cons c piece =>
      rw [(List.cons_prefix_cons.mp hbegins).1] at hpiece
      exact absurd List.mem_cons_self hpiece
  induction h with
  | nil => exact ⟨[], [], .nil, .done [], rfl, fun _ _ hpiece => hpiece⟩
  | @char c text tags hc _ ih =>
    obtain ⟨result, others, hyields, hwrites, hnames, hpieces⟩ := ih
    have hfree : '<' ∉ [c] := fun hmem => hc (List.mem_singleton.mp hmem).symm
    refine ⟨c :: result, others, hplain (quiet_of_not_mem begins_startTagPattern hfree) hyields,
      .char hc hwrites, hnames, fun piece hpiece hbegins => ?_⟩
    cases piece with
    | nil => exact List.nil_prefix
    | cons d piece =>
      rw [List.cons_prefix_cons] at hbegins ⊢
      exact ⟨hbegins.1, hpieces piece (List.not_mem_of_not_mem_cons hpiece) hbegins.2⟩
  | closing _ ih =>
    obtain ⟨result, others, hyields, hwrites, hnames, -⟩ := ih
    have hquiet : ∀ before rest, Quiet startTagPattern before ['<', '/'] rest :=
      quiet_startTagPattern (by decide) (by decide)
    exact ⟨'<' :: '/' :: result, others, hplain hquiet hyields, .closing hwrites, hnames,
      fun _ => hbracket⟩
  | declaration hcomment hsection _ ih =>
    obtain ⟨result, others, hyields, hwrites, hnames, hpieces⟩ := ih
    have hquiet : ∀ before rest, Quiet startTagPattern before ['<', '!'] rest :=
      quiet_startTagPattern (by decide) (by decide)
    exact ⟨'<' :: '!' :: result, others, hplain hquiet hyields,
      .declaration (fun hbegins => hcomment (hpieces _ (by decide) hbegins))
        (fun hbegins => hsection (hpieces _ (by decide) hbegins)) hwrites, hnames, fun _ =>
          hbracket⟩
  | @covered cover body text tags hcover hbody hhides _ ih =>
    obtain ⟨result, others, hyields, hwrites, hnames, -⟩ := ih
    obtain ⟨inside, -, hholds, hscans⟩ := hhides.exists_scans allow
    have hopening : ∀ before rest, Quiet startTagPattern before cover.opening rest := by
      cases cover with
      | comment => exact quiet_startTagPattern (by decide) (by decide)
      | verbatim => exact absurd rfl hcover
      | instruction => exact quiet_startTagPattern (by decide) (by decide)
    have hfree : '<' ∉ cover.closing := by cases cover <;> decide
    have hclosing : ∀ c ∈ cover.closing.head?, isTagNameStart c = false := by
      cases cover <;> (rintro c ⟨⟩; decide)
    have hleft := hplain (quiet_of_not_mem begins_startTagPattern hfree) hyields
    have hbodyYields : Yields startTagPattern (written (normalStartTag allow)) anything
      (body ++ (cover.closing ++ text))
        (inside ++ (cover.closing ++ result)) := by
      refine ⟨fun before rest _ => ?_, fun _ _ => trivial⟩
      have hhead : ∀ c ∈ (cover.closing ++ text ++ rest).head?, isTagNameStart c = false := by
        cases cover <;> exact hclosing
      obtain ⟨middle, hscan⟩ := hscans before (cover.closing ++ text ++ rest) hhead
      obtain ⟨after, hscan'⟩ := hleft.scans middle rest trivial
      rw [List.append_assoc body]
      exact ⟨after, hscan.append hscan'⟩
    refine ⟨cover.opening ++ (inside ++ (cover.closing ++ result)), others,
      hplain hopening hbodyYields, .covered cover (hholds cover hcover hbody) hwrites, hnames,
      fun piece hpiece hbegins => ?_⟩
    cases cover <;> exact hbracket hpiece hbegins
  | @tag tag text tags htag _ _ ih =>
    obtain ⟨result, others, hyields, hwrites, hnames, -⟩ := ih
    obtain ⟨other, hother, htagYields⟩ := exists_yields_looseTag allow htag
    have hsame : other.IsLoose ∧ other.names = tag.names := by
      rcases hother with rfl | rfl
      · exact ⟨htag, rfl⟩
      · exact ⟨htag.normalized, tag.names_normalized⟩
    refine ⟨other.source ++ result, other :: others, htagYields.append hyields,
      .opening hsame.1.isWritten hwrites, ?_, fun piece hpiece hbegins => hbracket hpiece hbegins⟩
    rw [List.map_cons, List.map_cons, hsame.2, hnames]

end Visualforce.Markup
