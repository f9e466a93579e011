import Visualforce.Proofs.Markup.NormalTag
import Visualforce.Proofs.Markup.Prepared
import Visualforce.Proofs.Pattern.Keyword
import Visualforce.Proofs.Text.Dedupe
import Visualforce.Proofs.Xml.AcceptedElement

/-! # Tags with added declarations

Qualifiers are declared in one start tag of a text, behind its name. When a document with the
declarations is accepted, the text writes the same start tags without them, each with the same name
and the same other attributes.
-/
namespace Visualforce.Markup
open Pattern Cursor
open Xml (IsAccepted)

variable {front name after text body inside left : Text} {tag : LooseTag} {tags : List LooseTag}
    {qualifiers : List Text}

/-- Declarations go behind the whole name of a tag. -/
theorem rootTagEnd?_eq_some {place : Cursor} (h : rootTagEnd? text = some place) : ∃ front name,
    text = front ++ '<' :: (name ++ place.rest) ∧ isTagName name ∧
    ∀ c ∈ place.rest.head?, isTagNameChar c = false := by
  obtain ⟨hit, hfind, rfl⟩ := Option.map_eq_some_iff.mp h
  have hgroup := List.find?_some hfind
  obtain ⟨there, ⟨front, hfront⟩, hmatch⟩ :=
    exists_matchAt_of_mem_hits (List.mem_of_find?_eq_some hfind)
  obtain ⟨last, hrun, rfl⟩ := Option.map_eq_some_iff.mp hmatch
  have hnone : ∀ {pattern : Pattern Unit}, Captures (fun _ _ => False) pattern →
      pattern.run ⟨there, []⟩ some ≠ some last := by
    intro pattern hcaptures hleads
    obtain ⟨_, hplace, heq⟩ := exists_leads hleads
    obtain rfl := Option.some.inj heq
    have hgroups :=
      List.eq_nil_iff_forall_not_mem.mpr (hcaptures.of_leads hplace (List.forall_mem_nil _))
    rw [Hit.group?, hgroups] at hgroup
    cases hgroup
  rw [prologOrTag_eq, run_alt, run_alt, run_alt, Option.or_eq_some_iff, Option.or_eq_some_iff,
    Option.or_eq_some_iff] at hrun
  rcases hrun with hcomment | ⟨-, hinstruction | ⟨-, hdeclaration | ⟨-, htag⟩⟩⟩
  · exact absurd hcomment (hnone ⟨⟨captures_exactly _, trivial⟩, captures_exactly _⟩)
  · exact absurd hinstruction (hnone ⟨⟨captures_exactly _, trivial⟩, captures_exactly _⟩)
  · exact absurd hdeclaration (hnone ⟨⟨captures_exactly _, trivial⟩, trivial⟩)
  · obtain ⟨before, rest, rfl⟩ : ∃ before rest, there = between before rest :=
      ⟨_, _, eq_between there⟩
    rw [between_rest] at hfront
    cases rest with
    | nil => cases htag
    | cons c rest =>
      rw [run_group, run_append, char, run_one_cons] at htag
      split_ifs at htag with hc
      obtain rfl := beq_iff_eq.mp hc
      cases rest with
      | nil => cases htag
      | cons d rest =>
        rw [tagName, run_append, run_one_cons] at htag
        split_ifs at htag with hd
        have hleft : ∀ c ∈ (rest.dropWhile isTagNameChar).head?, isTagNameChar c = false := fun c =>
          Text.not_of_mem_head?_dropWhile
        have hstar := fun goOn (last : Place Unit) => @run_starOne_of_some Unit last [] (some d)
          goOn isTagNameChar
          (rest.takeWhile isTagNameChar) (rest.dropWhile isTagNameChar)
            (fun c => List.mem_takeWhile_imp) hleft
        rw [List.takeWhile_append_dropWhile] at hstar
        obtain rfl := Option.some.inj (htag.symm.trans (hstar _ _ rfl))
        refine ⟨front, d :: rest.takeWhile isTagNameChar, ?_, ?_, hleft⟩
        · rw [← hfront, between_rest, List.cons_append, List.takeWhile_append_dropWhile]
        · rw [isTagName, Bool.and_eq_true, List.all_eq_true]
          refine ⟨hd, List.forall_mem_cons.mpr ⟨?_, fun c => List.mem_takeWhile_imp⟩⟩
          exact class_of_isTagNameStart isTagNameChar true (by decide) hd

theorem captures_qualifier :
    Captures (fun _ text => ∀ c ∈ text, isQualifierChar c) (group () qualifier) := by
  have hstart : ∀ c, isTagNameStart c → isQualifierChar c :=
    fun c => class_of_isTagNameStart isQualifierChar true (by decide)
  have hchars : PassesOnly isQualifierChar (qualifier : Pattern Unit) :=
    (PassesOnly.one hstart).append (PassesOnly.one fun _ hc => hc).star
  exact ⟨⟨trivial, trivial⟩, fun _ _ hleads => hchars.forall_mem_spanTo hleads⟩

theorem isQualifierChar_of_mem_findAll {pattern : Pattern Unit}
    (hcaptures : Captures (fun _ text => ∀ c ∈ text, isQualifierChar c) pattern)
    (h : name ∈ pattern.findAll () text) : ∀ c ∈ name, isQualifierChar c := by
  obtain ⟨hit, hhit, rfl⟩ := List.mem_map.mp h
  obtain ⟨there, -, hmatch⟩ := exists_matchAt_of_mem_hits hhit
  obtain hempty | hgroup := hcaptures.group hmatch ()
  · rw [hempty]
    exact List.forall_mem_nil _
  · exact hgroup

theorem isQualifierChar_of_mem_tagQualifiers (h : name ∈ tagQualifier.findAll () text) :
    ∀ c ∈ name, isQualifierChar c := by
  refine isQualifierChar_of_mem_findAll ?_ h
  exact ⟨⟨⟨⟨trivial, trivial, trivial⟩, captures_qualifier⟩, trivial⟩, trivial⟩

theorem isQualifierChar_of_mem_attributeQualifiers (h : name ∈ attributeQualifier.findAll () text) :
    ∀ c ∈ name, isQualifierChar c := by
  refine isQualifierChar_of_mem_findAll ?_ h
  exact ⟨⟨⟨⟨⟨trivial, captures_qualifier⟩, trivial⟩, trivial, trivial⟩, trivial⟩, trivial⟩

theorem isQualifierChar_of_mem_undeclared (h : name ∈ undeclared text) :
    ∀ c ∈ name, isQualifierChar c := by
  rw [undeclared, List.mem_filter, mem_dedupe, List.mem_append] at h
  rcases h.1 with htag | hattribute
  · exact isQualifierChar_of_mem_tagQualifiers htag
  · exact isQualifierChar_of_mem_attributeQualifiers hattribute

def declaring (qualifiers : List Text) : List LooseAttribute :=
  qualifiers.map fun qualifier => (declarationOf qualifier).loose

theorem attributesSource_declaring (qualifiers : List Text) :
    attributesSource (declaring qualifiers) = qualifiers.flatMap writeDeclaration := by
  rw [attributesSource, declaring, List.flatMap_map]
  exact List.flatMap_congr fun qualifier _ => (Attribute.source_loose _).trans
    (writeDeclaration_eq qualifier).symm

theorem bracket_not_mem_declarations (hqualifiers : ∀ qualifier ∈ qualifiers, ∀ c ∈ qualifier,
    isQualifierChar c) :
    '>' ∉ qualifiers.flatMap writeDeclaration := by
  rw [List.mem_flatMap]
  rintro ⟨qualifier, hqualifier, hmem⟩
  have hnot : '>' ∉ qualifier := fun hmem => absurd (hqualifiers qualifier hqualifier _ hmem)
    (by decide)
  have hfixed : '>' ∉ "xmlns".toList ∧ '>' ∉ "urn:".toList := by decide
  rw [writeDeclaration_eq, source_declarationOf] at hmem
  simp only [List.mem_cons, List.mem_append, List.not_mem_nil, hnot, hfixed, or_false] at hmem
  revert hmem
  decide

theorem exists_concat_declarations (hne : qualifiers ≠ []) :
    ∃ more, qualifiers.flatMap writeDeclaration = more ++ ['"'] := by
  obtain ⟨others, qualifier, rfl⟩ := (List.eq_nil_or_concat qualifiers).resolve_left hne
  refine ⟨others.flatMap writeDeclaration ++
    ' ' :: ("xmlns".toList ++ ':' :: (qualifier ++ '=' :: '"' ::
    ("urn:".toList ++ qualifier))), ?_⟩
  rw [List.concat_eq_append, List.flatMap_append, List.flatMap_singleton, writeDeclaration_eq,
    source_declarationOf]
  simp

theorem isLoose_declarationOf {qualifier : Text} (h : ∀ c ∈ qualifier, isQualifierChar c) :
    (declarationOf qualifier).loose.IsLoose := by
  refine Attribute.isLoose_loose ?_ fun hmem => ?_
  · rw [name_declarationOf]
    refine ⟨by simp, List.forall_mem_append.mpr ⟨by decide, List.forall_mem_cons.mpr
      ⟨by decide, fun c hc => ?_⟩⟩⟩
    exact isLooseNameChar_of_isTagNameChar (isTagNameChar_of_isQualifierChar (h c hc))
  · rcases List.mem_append.mp hmem with hmem | hmem
    · exact absurd hmem (by decide)
    · exact absurd (h _ hmem) (by decide)

theorem binds?_declarationOf (qualifier : Text) : (declarationOf qualifier).loose.binds? =
    some (some qualifier) := by
  have hname : (declarationOf qualifier).loose.name = "xmlns".toList ++ ':' :: qualifier :=
    name_declarationOf qualifier
  have hspelled : Xml.spelled ("xmlns".toList ++ ':' :: qualifier) =
    ⟨some "xmlns".toList, qualifier⟩ := by
    simp [Xml.spelled]
  rw [LooseAttribute.binds?, hname, hspelled]
  rfl

section
variable (hqualifiers : ∀ qualifier ∈ qualifiers, ∀ c ∈ qualifier, isQualifierChar c)
include hqualifiers

/-- Declarations that a tag begins with are its first attributes. -/
theorem exists_of_declaring_append {attributes : List LooseAttribute} {gap rest : Text}
    {closes : Bool}
    (h : ∀ attr ∈ attributes, attr.IsLoose) (hgap : ∀ c ∈ gap, Text.isBlank c)
    (hends : ∀ attr ∈ attributes.getLast?, attr.EndsBefore (gap ++ (tagEnd closes ++ rest)))
    (heq : attributesSource (declaring qualifiers) ++ text = attributesSource attributes ++
    (gap ++ (tagEnd closes ++ rest))) :
    ∃ others, attributes = declaring qualifiers ++ others ∧ text = attributesSource others ++
      (gap ++ (tagEnd closes ++ rest)) := by
  induction qualifiers generalizing attributes with
  | nil => exact ⟨attributes, rfl, heq⟩
  | cons qualifier qualifiers ih =>
    obtain ⟨hqualifier, hqualifiers⟩ := List.forall_mem_cons.mp hqualifiers
    have hloose := isLoose_declarationOf hqualifier
    rw [declaring, List.map_cons, ← declaring, attributesSource_cons_append] at heq
    cases attributes with
    | nil => exact absurd heq.symm (tagEnd_ne_source hloose hgap)
    | cons attr attributes =>
      obtain ⟨hattr, hattributes⟩ := List.forall_mem_cons.mp h
      rw [attributesSource_cons_append] at heq
      obtain ⟨rfl, hleft⟩ := LooseAttribute.append_inj hloose hattr
        (fun hnone => absurd hnone (Option.some_ne_none _))
        (endsBefore_attributesSource hattributes hends) heq
      obtain ⟨others, rfl, htext⟩ := ih hqualifiers hattributes
        (fun last hlast => hends last (List.mem_getLast?_cons hlast)) hleft
      exact ⟨others, rfl, htext⟩

theorem LooseTag.IsWritten.of_declaring (htag : tag.IsWritten) (hname : isTagName name)
    (hne : qualifiers ≠ [])
    (heq : '<' :: (name ++ (qualifiers.flatMap writeDeclaration ++ after)) = tag.source ++ text) :
    ∃ other : LooseTag, other.IsWritten ∧ '<' :: (name ++ after) = other.source ++ text ∧
      other.IsLike tag := by
  obtain ⟨qualifier, others, rfl⟩ := List.exists_cons_of_ne_nil hne
  have hstop : ∀ c ∈ ((qualifier :: others).flatMap writeDeclaration ++ after).head?,
    isLooseNameChar c = false := by
    rintro c ⟨⟩
    decide
  obtain ⟨-, -, -, -, hchars⟩ := exists_cons_of_isTagName hname
  simp only [source, List.cons_append, List.append_assoc] at heq
  obtain ⟨rfl, hleft⟩ := append_inj_of_class
    (fun c hc => isLooseNameChar_of_isTagNameChar (hchars c hc))
    (fun c hc => (htag.name c hc).1) hstop
    (head?_afterName isLooseNameChar_of_isBlank (by decide) htag.attributes htag.gap _)
      (List.cons_eq_cons.mp heq).2
  rw [← attributesSource_declaring] at hleft
  obtain ⟨attributes, hattributes, rfl⟩ := exists_of_declaring_append hqualifiers htag.attributes
    htag.gap
    (endsBefore_tagEnd htag.gap htag.last text) hleft
  refine ⟨{ tag with attributes },
    ⟨htag.start, htag.name, fun attr hattr => ?_, htag.gap, fun hgap hcloses attr hattr => ?_⟩, by
    simp [source], rfl, ?_⟩
  · exact htag.attributes attr (hattributes ▸ List.mem_append_right _ hattr)
  · refine htag.last hgap hcloses attr ?_
    rw [hattributes, List.getLast?_append, Option.mem_def.mp hattr]
    rfl
  · have hnone : (declaring (qualifier :: others)).filter (·.binds?.isNone) = [] := by
      rw [List.filter_eq_nil_iff, declaring]
      refine List.forall_mem_map.mpr fun other _ => ?_
      simp [binds?_declarationOf]
    rw [ownAttributes, ownAttributes, hattributes, List.filter_append, hnone, List.nil_append]

end

/-- What stands behind a name may be taken out of a body when the name does not go on behind it. -/
theorem Cover.Holds.of_inserted {cover : Cover} (hname : isTagName name)
    (hlast : ∀ c ∈ (left ++ cover.closing).head?, isTagNameChar c = false)
    (h : cover.Holds (front ++ '<' :: (name ++ (inside ++ left)))) :
    cover.Holds (front ++ '<' :: (name ++ left)) := by
  have hbracket : '<' ∉ cover.mark := by cases cover <;> decide
  obtain ⟨d, rest, hrest⟩ : ∃ d rest, left ++ cover.closing = d :: rest :=
    List.exists_cons_of_ne_nil (by cases cover <;> simp [closing, sectionClosing])
  have hd : isTagNameChar d = false := hlast d (by rw [hrest]; rfl)
  obtain ⟨-, -, -, -, hchars⟩ := exists_cons_of_isTagName hname
  have hinside : cover.Holds (name ++ (inside ++ left)) :=
    (h.of_suffix (List.suffix_append _ _)).of_suffix (List.suffix_cons _ _)
  have hleft : cover.Holds (name ++ left) := by
    clear h hname
    induction name with
    | nil => exact hinside.of_suffix (List.suffix_append _ _)
    | cons c name ih =>
      obtain ⟨hc, hchars⟩ := List.forall_mem_cons.mp hchars
      rw [List.cons_append, holds_cons] at hinside ⊢
      refine ⟨fun hmark => ?_, ih hchars hinside.2⟩
      -- a mark that holds what ends the name begins with what no name holds
      have hapart : d ∉ cover.mark := by
        intro hmem
        cases cover with
        | comment =>
          obtain rfl : d = '-' := by simpa [mark] using hmem
          revert hd
          decide
        | verbatim =>
          exact absurd (List.cons_prefix_cons.mp hmark).1.symm
            (ne_of_isTagNameChar hc (by decide))
        | instruction =>
          exact absurd (List.cons_prefix_cons.mp hmark).1.symm
            (ne_of_isTagNameChar hc (by decide))
      rw [List.append_assoc, hrest, ← List.cons_append] at hmark
      refine hinside.1
        ((Text.isPrefix_stop hapart hmark).trans ⟨inside ++ (left ++ cover.closing), ?_⟩)
      simp
  refine .append_cons (h.not_isInfix (List.prefix_append _ _).isInfix) hbracket
    (holds_cons.mpr ⟨fun hmark => hbracket ?_, hleft⟩)
  cases cover with
  | comment => exact (List.cons_prefix_cons.mp hmark).1 ▸ List.mem_cons_self
  | verbatim => exact (List.cons_prefix_cons.mp hmark).1 ▸ List.mem_cons_self
  | instruction => exact (List.cons_prefix_cons.mp hmark).1 ▸ List.mem_cons_self

/-- A stretch that covers declarations covers what is around them. -/
theorem Cover.Holds.exists_of_declaring {cover : Cover}
    (hqualifiers : ∀ qualifier ∈ qualifiers, ∀ c ∈ qualifier, isQualifierChar c)
    (hname : isTagName name) (hafter : ∀ c ∈ after.head?, isTagNameChar c = false)
    (hne : qualifiers ≠ [])
    (h : cover.Holds body) (heq : body ++ (cover.closing ++ text) =
      front ++ '<' :: (name ++ (qualifiers.flatMap writeDeclaration ++ after))) :
    (∃ left, front = body ++ (cover.closing ++ left) ∧
      text = left ++ '<' :: (name ++ (qualifiers.flatMap writeDeclaration ++ after))) ∨
    ∃ other, cover.Holds other ∧ front ++ '<' :: (name ++ after) = other ++
      (cover.closing ++ text) := by
  have hclosing : '<' ∉ cover.closing ∧ '"' ∉ cover.closing ∧ '>' ∈ cover.closing := by
    cases cover <;> decide
  obtain ⟨d, ending, hending⟩ : ∃ d ending, cover.closing = d :: ending := by
    cases cover <;> exact ⟨_, _, rfl⟩
  have hcovered : ∀ last, body = front ++
    '<' :: (name ++ (qualifiers.flatMap writeDeclaration ++ last)) →
      after = last ++ (cover.closing ++ text) → ∃ other, cover.Holds other ∧
        front ++ '<' :: (name ++ after) = other ++ (cover.closing ++ text) := by
    rintro last rfl hlast
    refine ⟨front ++ '<' :: (name ++ last), h.of_inserted hname fun c hc => hafter c ?_, by
      simp [hlast]⟩
    rw [hlast, ← List.append_assoc, List.head?_append_of_ne_nil _ (by simp [hending])]
    exact hc
  obtain ⟨left, rfl, hleft⟩ | ⟨left, rfl, hleft⟩ := List.append_eq_append_iff.mp heq
  · obtain ⟨more, rfl, hmore⟩ := Text.exists_of_append_eq_cons hclosing.1 hleft
    exact .inl ⟨more, rfl, hmore⟩
  · cases left with
    | nil =>
      rw [List.nil_append, hending] at hleft
      rw [hending, ← (List.cons_eq_cons.mp hleft).1] at hclosing
      exact absurd List.mem_cons_self hclosing.1
    | cons c inner =>
      obtain ⟨rfl, hinner⟩ := List.cons_eq_cons.mp hleft
      rw [← List.append_assoc] at hinner
      obtain ⟨last, rfl, hlast⟩ | ⟨last, hlast, hrest⟩ := List.append_eq_append_iff.mp hinner
      · exact .inr (hcovered last (by simp) hlast)
      · by_cases hempty : last = []
        · subst hempty
          rw [List.append_nil] at hlast
          exact .inr (hcovered [] (by simp [hlast]) hrest.symm)
        · -- the end would begin in the declarations, the last of which has a quote behind it
          obtain ⟨more, hmore⟩ := exists_concat_declarations hne
          have hquote : '"' ∈ last := by
            have hget := congrArg List.getLast? hlast
            rw [hmore, ← List.append_assoc, List.getLast?_concat,
              List.getLast?_append_of_ne_nil _ hempty] at hget
            exact List.mem_of_getLast? hget.symm
          obtain ⟨_, hsplit, -⟩ | ⟨_, hsplit, -⟩ := List.append_eq_append_iff.mp hrest
          · have hbracket : '>' ∈ name ++ qualifiers.flatMap writeDeclaration :=
              hlast ▸ List.mem_append_right _ (hsplit ▸ List.mem_append_left _ hclosing.2.2)
            rcases List.mem_append.mp hbracket with hmem | hmem
            · exact absurd hmem (not_mem_of_isTagName hname (by decide))
            · exact absurd hmem (bracket_not_mem_declarations hqualifiers)
          · exact absurd (hsplit ▸ List.mem_append_left _ hquote) hclosing.2.1

/-- A text in which a tag has declarations writes the same tags without them. -/
theorem Writes.of_declaring (hqualifiers : ∀ qualifier ∈ qualifiers, ∀ c ∈ qualifier,
    isQualifierChar c)
    (hname : isTagName name) (hafter : ∀ c ∈ after.head?, isTagNameChar c = false)
    (hne : qualifiers ≠ [])
    (hbracket : ∀ tag ∈ tags, '<' ∉ tag.source.tail)
    (h : Writes (front ++ '<' :: (name ++ (qualifiers.flatMap writeDeclaration ++ after))) tags
    []) :
    ∃ others, Writes (front ++ '<' :: (name ++ after)) others [] ∧
      List.Forall₂ LooseTag.IsLike others tags := by
  have hsame : ∀ tags, List.Forall₂ LooseTag.IsLike tags tags :=
    fun tags => List.forall₂_same.mpr fun tag _ => .refl tag
  obtain ⟨first, more, hcons, hfirst, -⟩ := exists_cons_of_isTagName hname
  have hmark : ∀ mark, isTagNameStart mark = false → first ≠ mark := by
    rintro mark hmark rfl
    rw [hfirst] at hmark
    cases hmark
  induction hlength : front.length using Nat.strong_induction_on generalizing front tags with
  | _ n ih =>
    cases front with
    | nil =>
      obtain ⟨_, hmore, -⟩ | ⟨_, hmore, -⟩ | ⟨cover, body, _, hmore, -⟩ | ⟨tag, rest, others, hmore,
        htag, rfl, hrest⟩ :=
        h.cases_of_bracket
      · rw [hcons] at hmore
        exact absurd (List.cons_eq_cons.mp hmore).1 (hmark _ (by decide))
      · rw [hcons] at hmore
        exact absurd (List.cons_eq_cons.mp hmore).1 (hmark _ (by decide))
      · obtain ⟨mark, _, hmem, hopening⟩ := cover.opening_append (body ++ (cover.closing ++ _))
        rw [hopening, hcons] at hmore
        refine absurd (List.cons_eq_cons.mp (List.cons_eq_cons.mp hmore).2).1 (hmark _ ?_)
        exact (by decide : ∀ mark ∈ ['!', '?'], isTagNameStart mark = false) mark hmem
      · obtain ⟨other, hother, hsource, hlike⟩ := htag.of_declaring hqualifiers hname hne hmore
        refine ⟨other :: others, ?_, .cons hlike (hsame others)⟩
        rw [List.nil_append, hsource]
        exact .opening hother hrest
    | cons c front =>
      by_cases hc : c = '<'
      · subst hc
        obtain ⟨_, hmore, hrest⟩ | ⟨_, hmore, hcomment, hsection, hrest⟩
          | ⟨cover, body, rest, hmore, hbody, hrest⟩ |
          ⟨tag, rest, others, hmore, htag, rfl, hrest⟩ := h.cases_of_bracket
        · obtain ⟨left, rfl, rfl⟩ :=
            Text.exists_of_append_eq_cons (List.mem_singleton.not.mpr (by decide)) hmore.symm
          obtain ⟨others, hwrites, hothers⟩ :=
            ih left.length (by simp only [← hlength, List.length_cons, List.length_append]; omega)
            hbracket hrest rfl
          exact ⟨others, .closing hwrites, hothers⟩
        · obtain ⟨left, rfl, rfl⟩ :=
            Text.exists_of_append_eq_cons (List.mem_singleton.not.mpr (by decide)) hmore.symm
          obtain ⟨others, hwrites, hothers⟩ :=
            ih left.length (by simp only [← hlength, List.length_cons, List.length_append]; omega)
            hbracket hrest rfl
          have hstops : ∀ {piece : Text}, '<' ∉ piece → piece <+: left ++ '<' :: (name ++ after) →
              piece <+: left ++
                '<' :: (name ++ (qualifiers.flatMap writeDeclaration ++ after)) := by
            intro piece hpiece hbegins
            exact (Text.isPrefix_stop hpiece hbegins).trans (List.prefix_append _ _)
          exact ⟨others, .declaration (fun hbegins => hcomment (hstops (by decide) hbegins))
            (fun hbegins => hsection (hstops (by decide) hbegins)) hwrites, hothers⟩
        · obtain ⟨opening, hopening, hfree⟩ : ∃ opening, cover.opening = '<' :: opening ∧
            '<' ∉ opening := by
            cases cover <;> exact ⟨_, rfl, by decide⟩
          rw [hopening, List.cons_append] at hmore
          obtain ⟨left, rfl, hleft⟩ :=
            Text.exists_of_append_eq_cons hfree (List.cons_eq_cons.mp hmore).2.symm
          obtain ⟨left, rfl, rfl⟩ | ⟨other, hother, hsource⟩ :=
            hbody.exists_of_declaring hqualifiers hname hafter hne hleft
          · obtain ⟨others, hwrites, hothers⟩ :=
              ih left.length (by simp only [← hlength, List.length_cons, List.length_append]; omega)
              hbracket hrest rfl
            refine ⟨others, ?_, hothers⟩
            have hcovered := Writes.covered cover hbody hwrites
            rw [hopening] at hcovered
            simpa using hcovered
          · refine ⟨tags, ?_, hsame tags⟩
            have hcovered := Writes.covered cover hother hrest
            rw [hopening, ← hsource] at hcovered
            simpa using hcovered
        · obtain ⟨htail, hbracket⟩ := List.forall_mem_cons.mp hbracket
          obtain ⟨left, hleft, rfl⟩ :=
            Text.exists_of_append_eq_cons htail (List.cons_eq_cons.mp hmore).2.symm
          obtain ⟨others, hwrites, hothers⟩ :=
            ih left.length
            (by simp only [← hlength, hleft, List.length_cons, List.length_append]; omega)
            hbracket hrest rfl
          refine ⟨tag :: others, ?_, .cons (.refl tag) hothers⟩
          have hopening := Writes.opening htag hwrites
          rw [hleft]
          simpa [LooseTag.source] using hopening
      · obtain ⟨others, hwrites, hothers⟩ :=
          ih front.length (by simp [← hlength]) hbracket (h.of_char hc) rfl
        exact ⟨others, .char hc hwrites, hothers⟩

/-- Declaring qualifiers adds declarations to one start tag, and no tag is lost or changed
otherwise. -/
theorem Writes.of_declareQualifiers (hbracket : ∀ tag ∈ tags, '<' ∉ tag.source.tail)
    (h : Writes (declareQualifiers text) tags []) :
    ∃ others, Writes text others [] ∧ List.Forall₂ LooseTag.IsLike others tags := by
  have hsame : Writes text tags [] → ∃ others, Writes text others [] ∧
    List.Forall₂ LooseTag.IsLike others tags :=
    fun hwrites => ⟨tags, hwrites, List.forall₂_same.mpr fun tag _ => .refl tag⟩
  rw [declareQualifiers] at h
  split_ifs at h with hmissing
  · exact hsame h
  · rw [List.isEmpty_iff] at hmissing
    cases hplace : rootTagEnd? text with
    | none =>
      rw [hplace] at h
      exact hsame h
    | some place =>
      rw [hplace] at h
      obtain ⟨front, name, htext, hname, hafter⟩ := rootTagEnd?_eq_some hplace
      have htake : text.take (text.length - place.left) = front ++ '<' :: name := by
        have hassoc : text = (front ++ '<' :: name) ++ place.rest := by simp [htext]
        rw [place.left_eq, hassoc, List.length_append, Nat.add_sub_cancel, List.take_left]
      dsimp only at h
      rw [htake, List.append_assoc, List.append_assoc, List.cons_append] at h
      rw [htext]
      exact Writes.of_declaring
        (fun qualifier hqualifier => isQualifierChar_of_mem_undeclared hqualifier) hname hafter
        hmissing
        hbracket h

end Visualforce.Markup
