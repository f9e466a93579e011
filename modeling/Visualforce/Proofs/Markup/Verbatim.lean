import Visualforce.Proofs.Markup.Around

/-! # Bodies taken verbatim

The sections of a body are read as the body itself, and nothing else on the page has changed. So the
tree of the page holds the body as it was written, but for the blanks around it.
-/
namespace Visualforce.Markup

/-- The nodes of a run of text inside elements without attributes. -/
def enclosed {α : Type} (make : Maker α) : List Text → Text → List α
  | [], run => make.text run
  | tag :: tags, run => [make.element ⟨tag, []⟩ (enclosed make tags run)]

end Visualforce.Markup

namespace Visualforce.Xml
open Markup

variable {entities : Entities} {qualifiers inner : List Text} {contents : List Text}
    {tag rest : Text}

/-- How many steps it takes to read the sections inside some elements. -/
def stepsAround (inner : List Text) (contents : List Text) : Nat :=
  2 * inner.length + contents.length

/-- Elements are read inside one another up to the end tag of the one around them. -/
theorem content_around (hinner : ∀ name ∈ inner, IsUsable name ∧ qualifierOf name ⊆ qualifiers)
    (hchars : ∀ c ∈ contents.flatten, isSectionChar c)
    (hwhole : ∀ content ∈ contents, IsWhole content)
    (outer : List Frame) (frame : Frame) (hscope : frame.opened.scope.Binds qualifiers)
    (htag : IsSpelling tag) (hframe : frame.opened.written = spelled tag) (n : Nat) :
    content entities (stepsAround inner contents + (n + 1)) outer frame []
        (around inner (sectionsSource contents) ++ '<' :: '/' :: (tag ++ '>' :: rest)) =
      leave entities n outer ⟨frame.opened.name, frame.opened.attributes,
        frame.children.reverse ++ enclosed documentMaker inner contents.flatten⟩ rest := by
  induction inner generalizing outer frame tag rest n with
  | nil =>
    rw [stepsAround, List.length_nil, Nat.mul_zero, Nat.zero_add, around,
      content_sections hchars hwhole, content_closing htag hframe, Frame.close, flush_children,
      flush_opened]
    simp [enclosed]
  | cons name inner ih =>
    obtain ⟨⟨husable, hdeclared⟩, hinner⟩ := List.forall_mem_cons.mp hinner
    have hhead := (isSpelledBy_of_isUsable husable).isReadBack
    have hsteps : stepsAround (name :: inner) contents + (n + 1) =
        (stepsAround inner contents + (n + 1 + 1)) + 1 := by
      simp only [stepsAround, List.length_cons]
      omega
    have hsource : around (name :: inner) (sectionsSource contents) ++
      '<' :: '/' :: (tag ++ '>' :: rest) =
        ((Token.opening ⟨name, []⟩ false).encoded id).source ++
          (around inner (sectionsSource contents) ++
          '<' :: '/' :: (name ++ '>' :: ('<' :: '/' :: (tag ++ '>' :: rest)))) := by
      simp [around, Token.encoded, Token.source, Head.encoded, Head.attributeSource, tagEnd, slash]
    have hqualifiers : Head.qualifiers ⟨name, []⟩ ⊆ qualifiers := by
      simpa [Head.qualifiers] using hdeclared
    have hframe' : ∀ element, ((frame.flush []).add element).opened.written = spelled tag := by
      intro element
      rw [add_opened, flush_opened, hframe]
    rw [hsteps, hsource, content_opening hhead hscope hqualifiers, if_neg (by decide),
      ih hinner _ ⟨openedBy frame.opened.scope ⟨name, []⟩, []⟩ hscope husable.spelling rfl, leave,
      content_closing htag (hframe' _)]
    simp [Frame.add, Frame.flush, Frame.close, enclosed, documentMaker, Element.toNode, openedBy]

theorem length_contents_le (contents : List Text) :
    contents.length ≤ (sectionsSource contents).length := by
  induction contents with
  | nil => exact Nat.zero_le _
  | cons content contents ih =>
    have hpos : 0 < (sectionSource content).length :=
      List.length_pos_iff.mpr (by simp [sectionSource, closing_eq])
    rw [sectionsSource, List.flatMap_cons, ← sectionsSource, List.length_append, List.length_cons]
    omega

theorem stepsAround_le (inner contents : List Text) :
    stepsAround inner contents ≤ (around inner (sectionsSource contents)).length := by
  induction inner with
  | nil =>
    rw [stepsAround, List.length_nil, Nat.mul_zero, Nat.zero_add]
    exact length_contents_le contents
  | cons name inner ih =>
    simp only [stepsAround, around, List.length_cons, List.length_append] at ih ⊢
    omega

theorem read_around (hqualifiers : ∀ qualifier ∈ qualifiers, IsQualifier qualifier)
    (hnodup : qualifiers.Nodup) (htag : IsUsable tag) (hroot : qualifierOf tag ⊆ qualifiers)
    (hinner : ∀ name ∈ inner, IsUsable name ∧ qualifierOf name ⊆ qualifiers)
    (hchars : ∀ c ∈ contents.flatten, isSectionChar c)
    (hwhole : ∀ content ∈ contents, IsWhole content) :
    read ((Token.opening ((Head.mk tag []).declaring qualifiers) false).source ++
        (around inner (sectionsSource contents) ++ '<' :: '/' :: (tag ++ ['>']))) =
      .ok ⟨expandedName tag, [], enclosed documentMaker inner contents.flatten⟩ := by
  let after := around inner (sectionsSource contents) ++ '<' :: '/' :: (tag ++ '>' :: [])
  have hdeclared : Head.qualifiers ⟨tag, []⟩ ⊆ qualifiers := by simpa [Head.qualifiers] using hroot
  refine read_root after (isSpelledBy_of_isUsable htag).isReadBack hqualifiers hnodup hdeclared
    false ?_
  have hfuel : after.length + 1 =
      stepsAround inner contents + (after.length - stepsAround inner contents + 1) := by
    have hle := stepsAround_le inner contents
    simp only [after, List.length_append]
    omega
  rw [if_neg (by decide), hfuel, content_around hinner hchars hwhole []
    ⟨openedBy (pageScope qualifiers) ⟨tag, []⟩, []⟩ (binds_pageScope qualifiers) htag.spelling rfl]
  rfl

end Visualforce.Xml

namespace Visualforce.Markup
open Pattern Cursor
open Text (somewhere Skips EndsAt)
open Xml (documentMaker expandedName expandedAttributes)

variable {name body : Text} {contents inner : List Text}

theorem depthOfList_enclosed (inner : List Text) (run : Text) :
    Xml.Node.depthOfList (enclosed documentMaker inner run) = inner.length := by
  induction inner with
  | nil => cases run <;> rfl
  | cons name inner ih =>
    have hone : Xml.Node.depthOfList (enclosed documentMaker (name :: inner) run) =
        max (Xml.Node.depthOfList (enclosed documentMaker inner run) + 1) 0 := rfl
    rw [hone, ih, Nat.max_zero, List.length_cons]

/-- Declarations of other namespaces do not change how a name is qualified. -/
theorem qualify_append {declared others : List (Text × Text)} {name : Xml.Name}
    (h : ∀ entry ∈ others, name.space ≠ some entry.2) :
    qualify (declared ++ others) name = qualify declared name := by
  rw [qualify, qualify]
  cases hspace : name.space with
  | none => rfl
  | some space =>
    have hnone : others.reverse.find? (·.2 == space) = none := by
      rw [List.find?_eq_none]
      intro entry hentry heq
      exact h entry (List.mem_reverse.mp hentry) (by rw [hspace, beq_iff_eq.mp heq])
    simp only [List.reverse_append, List.find?_append, hnone, Option.none_or]

/-- The document around a body becomes the tree around it, when the names get their qualifiers
back. -/
theorem nodes_enclosed {declared : List (Text × Text)}
    (h : ∀ tag ∈ inner, qualify declared (expandedName tag) = tag) (run : Text) :
    (Conversion.mk declared true).nodes (enclosed documentMaker inner run) =
      enclosed treeMaker inner run := by
  induction inner with
  | nil => exact nodes_text _ rfl run
  | cons tag inner ih =>
    obtain ⟨htag, hinner⟩ := List.forall_mem_cons.mp h
    have hone : (Conversion.mk declared true).nodes (enclosed documentMaker (tag :: inner) run) =
        [.element ⟨qualify declared (expandedName tag), []⟩
          ((Conversion.mk declared true).nodes (enclosed documentMaker inner run))] := rfl
    rw [hone, htag, ih hinner]
    rfl

theorem element_enclosed {declared : List (Text × Text)} {tag : Text}
    (h : ∀ name ∈ tag :: inner, qualify declared (expandedName name) = name) (run : Text) :
    (Conversion.mk declared true).element ⟨expandedName tag, [], enclosed documentMaker inner run⟩ =
      ⟨⟨tag, []⟩, enclosed treeMaker inner run⟩ := by
  obtain ⟨htag, hinner⟩ := List.forall_mem_cons.mp h
  rw [Conversion.element, Conversion.head, htag, nodes_enclosed hinner]
  rfl

section
variable (hinner : inner ∈ bodyPaths)
include hinner

theorem qualifierOf_around : ∀ tag ∈ pageRoot :: inner, qualifierOf tag ⊆ ["apex".toList] := by
  refine List.forall_mem_cons.mpr ⟨?_, fun tag htag => ?_⟩
  · have hroot : qualifierOf pageRoot = ["apex".toList] :=
      qualifierOf_qualified (by decide : isPart "apex".toList) "page".toList
    rw [hroot]
    exact List.Subset.refl _
  · rcases List.mem_cons.mp hinner with rfl | hinner
    · cases htag
    · obtain ⟨name, hname, rfl⟩ := List.mem_map.mp hinner
      rw [List.mem_singleton.mp htag, qualifierOf_simple (isPart_opaqueTags name hname)]
      exact List.nil_subset _

/-- With declarations that are none for the root, the tags around a body are qualified as they
were. -/
theorem qualify_around {qualifiers : List Text} (hapex : "apex".toList ∈ qualifiers)
    {others : List (Text × Text)} (hothers : ∀ entry ∈ others, entry.2 ≠ "urn:apex".toList) :
    ∀ tag ∈ pageRoot :: inner, qualify (declaredBy qualifiers ++ others) (expandedName tag) =
      tag := by
  intro tag htag
  have hsubset := qualifierOf_around hinner tag htag
  have hspelling := (isUsable_of_mem_bodyPaths hinner tag htag).spelling
  rw [qualify_append,
    qualify_expandedName hspelling (List.Subset.trans hsubset (by simpa using hapex))]
  intro entry hentry hspace
  obtain ⟨qualifier, hqualifier, heq⟩ := Option.map_eq_some_iff.mp hspace
  have hname : qualifier = "apex".toList :=
    List.mem_singleton.mp (hsubset (Option.mem_toList.mpr hqualifier))
  exact hothers entry hentry (by rw [← heq, hname]; rfl)

/-- A page with the sections of an inert body becomes the tree with the body. -/
theorem build_sections {text : Text} (htrim : Text.trim (withoutMarks text) = text)
    (hwrap : wrapOpaque Config.standard.opaqueTags text = around (pageRoot :: inner)
    (sectionsSource contents))
    (hwhole : ∀ content ∈ contents, IsWhole content) (hne : contents ≠ [])
    (h : IsInert contents.flatten) :
    build Config.standard text =
      .ok ⟨⟨pageRoot, []⟩, enclosed treeMaker inner contents.flatten⟩ := by
  let source := around (pageRoot :: inner) (sectionsSource contents)
  let rest := around inner (sectionsSource contents) ++ '<' :: '/' :: (pageRoot ++ ['>'])
  let qualifiers := undeclared source
  let prepared := (Token.opening ((Head.mk pageRoot []).declaring qualifiers) false).source ++ rest
  have hmarks := marks_around hinner h.marks
  have hqualifiers : ∀ qualifier ∈ qualifiers, IsQualifier qualifier :=
    isQualifier_of_mem_undeclared (misnamed_around hinner h.names)
  have happended : prepared = '<' :: (pageRoot ++ (qualifiers.flatMap
      (fun qualifier => (declarationOf qualifier).source) ++ '>' :: rest)) := by
    simp [prepared, Token.source, Head.declaring, Head.attributeSource, List.flatMap_map, tagEnd,
      slash]
  have hprepared : prepare Config.standard text = prepared := by
    have hboolean : Config.standard.allowBooleanAttributes = true := rfl
    rw [prepare, htrim, hwrap, hboolean, normalizeOutsideSections_around hinner hwhole hne,
      happended]
    exact declareQualifiers_tag isUsable_pageRoot.spelling (by rintro c ⟨⟩; decide)
  have hapex : "apex".toList ∈ qualifiers := mem_undeclared hmarks
  have hdeclared : ∀ tag ∈ pageRoot :: inner, qualifierOf tag ⊆ qualifiers := fun tag htag =>
    List.Subset.trans (qualifierOf_around hinner tag htag) (by simpa using hapex)
  have husable := isUsable_of_mem_bodyPaths hinner
  have hread : Xml.read prepared =
      .ok ⟨expandedName pageRoot, [], enclosed documentMaker inner contents.flatten⟩ :=
    Xml.read_around hqualifiers ((nodup_dedupe _).filter _) isUsable_pageRoot
      (hdeclared _ List.mem_cons_self)
      (fun name hname => ⟨husable name (.tail _ hname), hdeclared name (.tail _ hname)⟩)
        h.chars hwhole
  -- what looks like a declaration in the body is not one for the root
  obtain ⟨others, hdeclarations, hothers⟩ := declarations_root
    (by decide +kernel : ¬ "xmlns".toList <:+: '<' :: pageRoot)
    (EndsName.stopsWord ⟨'>', rest, rfl, by simp⟩) hqualifiers
  rw [← happended] at hdeclarations
  have hspaces : ∀ entry ∈ others.map declaredAt, entry.2 ≠ "urn:apex".toList := by
    refine List.forall_mem_map.mpr fun hit hmem => ?_
    obtain ⟨there, hthere, hmatch⟩ := hothers hit hmem
    have hsuffix : '>' :: rest <:+ source := ⟨'<' :: pageRoot, by simp [source, rest, around]⟩
    exact (declaredAt_ne hmarks (hthere.trans hsuffix) hmatch).2
  have hqualify := qualify_around hinner hapex hspaces
  rw [← hdeclarations] at hqualify
  have htree := element_enclosed hqualify contents.flatten
  have hdepth : ¬ depthLimit < (⟨expandedName pageRoot, [],
      enclosed documentMaker inner contents.flatten⟩ : Xml.Element).depth := by
    rw [Xml.Element.depth, Xml.Element.toNode, Xml.Node.depth, depthOfList_enclosed]
    exact (forall_bodyPaths (by decide) (by decide) (by decide) :
      ∀ inner ∈ bodyPaths, ¬ depthLimit < inner.length + 1) inner hinner
  have htrimmed : Config.standard.trimValues = true := rfl
  rw [build, hprepared, hread]
  simp only [if_neg hdepth, htrimmed, htree]
  exact if_pos (by decide)

end

/-- A blank body is no code to be wrapped, and it leaves no text. -/
theorem isClear_of_isBlank {c : Char} (hchar : Xml.isSectionChar c) (hblank : Text.isBlank c) :
    isClearChar c := by
  rw [Xml.isSectionChar, Bool.and_eq_true] at hchar
  have hmarks : ∀ mark ∈ "<&\"':>".toList, Text.isBlank mark = false := by decide
  have hnot : "<&\"':>".toList.contains c = false := by
    rw [← Bool.not_eq_true, List.contains_iff_mem]
    intro hmem
    rw [hmarks c hmem] at hblank
    cases hblank
  rw [isClearChar, hchar.1, hchar.2, hnot]
  rfl

theorem build_blank (hname : name ∈ Config.standard.opaqueTags) (h : IsInert body)
    (hend : somewhere (beginsEnd name) body = false) (hblank : Text.isBlankText body) :
    build Config.standard (around [pageRoot, name] body) =
      .ok ⟨⟨pageRoot, []⟩, enclosed treeMaker [name] body⟩ := by
  let page := Written.element ⟨pageRoot, []⟩ [.element ⟨name, []⟩ [.text body]]
  have hsource : around [pageRoot, name] body = Xml.encodedSource id page.tokens := by
    simp [around, page, Written.tokens, tokensOf, Token.encoded, Token.source, Head.encoded,
      Head.attributeSource, tagEnd, slash]
  have hchars : ∀ c ∈ body, Text.isBlank c := List.all_eq_true.mp hblank
  have htext : Spells isClearChar body body :=
    .of_all fun c hc => isClear_of_isBlank (h.chars c hc) (hchars c hc)
  have hspelled : ∀ token ∈ page.tokens, token.IsSpelledBy id := by
    have husable := isUsable_opaqueTags hname
    have hroot : (Token.opening ⟨pageRoot, []⟩ false).IsSpelledBy id :=
      isSpelledBy_of_isUsable isUsable_pageRoot
    have hinner : (Token.opening ⟨name, []⟩ false).IsSpelledBy id := isSpelledBy_of_isUsable husable
    have htokens : page.tokens = [.opening ⟨pageRoot, []⟩ false, .opening ⟨name, []⟩ false,
      .text body,
        .closing name, .closing pageRoot] := rfl
    rw [htokens]
    exact List.forall_mem_cons.mpr
      ⟨hroot, List.forall_mem_cons.mpr
        ⟨hinner, List.forall_mem_cons.mpr
        ⟨htext, List.forall_mem_cons.mpr
        ⟨husable, List.forall_mem_singleton.mpr isUsable_pageRoot⟩⟩⟩⟩
  have hwrap : wrapOpaque Config.standard.opaqueTags (Xml.encodedSource id page.tokens) =
      Xml.encodedSource id page.tokens := by
    rw [← hsource, wrapOpaque_around hname h.elements hend, wrapped, if_pos hblank]
  have hdepth : page.depth ≤ depthLimit := by
    have hpage : page.depth = 2 := rfl
    rw [hpage]
    decide
  have hbuild := build_encoded rfl hspelled hwrap (by decide) hdepth fun closes tokens htokens => ?_
  · have hnone : Text.isBlankText [] = true := rfl
    rw [hsource, hbuild]
    simp [page, Written.tree, Written.children, nodesOf, forestOf, Written.before, Forest.all,
      treeMaker, enclosed, hnone]
  · obtain ⟨hopening, rfl⟩ := List.cons_eq_cons.mp htokens
    obtain ⟨-, rfl⟩ := Token.opening.inj hopening
    refine declaresAtRoot_of_not_isInfix (by decide +kernel) (fun hword => ?_)
      (endsName_afterRoot _ _ _)
    -- one letter of the word is found neither in the tags nor among blanks
    have hmem := hword.subset (by decide : 'n' ∈ "xmlns".toList)
    have hname' : 'n' ∉ name :=
      (by decide : ∀ name ∈ Config.standard.opaqueTags, 'n' ∉ name) name hname
    have hbody : 'n' ∉ body := fun hmem => absurd (hchars 'n' hmem) (by decide)
    have hroot : 'n' ∉ pageRoot := by decide
    simp [afterRoot, Head.attributeSource, Head.encoded, tagEnd, slash, sourceOf, tokensOf,
      Written.tokens, Token.encoded, Token.source, hname', hbody, hroot] at hmem

/-- The body of an opaque element or of a section becomes one text, but for the blanks around it. -/
theorem build_verbatim (h : IsInert body) :
    (∀ name ∈ Config.standard.opaqueTags, somewhere (beginsEnd name) body = false →
      build Config.standard (around [pageRoot, name] body) =
        .ok ⟨⟨pageRoot, []⟩, [.element ⟨name, []⟩
          (if Text.isBlankText body then [] else [.text (Text.trim body)])]⟩) ∧
    (IsWhole body → build Config.standard (around [pageRoot] (sectionSource body)) =
      .ok ⟨⟨pageRoot, []⟩, if Text.isBlankText body then [] else [.text (Text.trim body)]⟩) := by
  constructor
  · intro name hname hend
    by_cases hblank : Text.isBlankText body
    · exact build_blank hname h hend hblank
    · obtain ⟨first, others, hdivided, -, hwhole⟩ := exists_dividedBody body
      have hinner : [name] ∈ bodyPaths := List.mem_cons_of_mem _ (List.mem_map_of_mem hname)
      have hwrap := wrapOpaque_around hname h.elements hend
      rw [wrapped, if_neg hblank] at hwrap
      have hbuild := build_sections hinner (trim_around _ _ _) hwrap (hdivided ▸ hwhole)
        (hdivided ▸ List.cons_ne_nil first others) ((flatten_dividedBody body).symm ▸ h)
      rwa [flatten_dividedBody] at hbuild
  · intro hwhole
    have hsource : sectionSource body = sectionsSource [body] := (List.append_nil _).symm
    have hflatten : [body].flatten = body := List.append_nil body
    rw [hsource]
    have hbuild := build_sections List.mem_cons_self (trim_around pageRoot [] _)
      (wrapOpaque_sections (hflatten.symm ▸ h.elements)) (List.forall_mem_singleton.mpr hwhole)
      (List.cons_ne_nil body []) (hflatten.symm ▸ h)
    rwa [hflatten] at hbuild

/-- Code with the characters that markup gives a meaning to, and with the mark that ends a
section. -/
def codeBody : Text := "if (rows[ids[0]]>1 && a < b) show(\"<div>\");".toList

def dataBody : Text := " a < b && c ".toList

theorem build_codeBody : IsInert codeBody ∧ IsInert dataBody ∧
    build Config.standard (around [pageRoot, "script".toList] codeBody) =
      .ok ⟨⟨pageRoot, []⟩, [.element ⟨"script".toList, []⟩ [.text codeBody]]⟩ ∧
    build Config.standard (around [pageRoot] (sectionSource dataBody)) =
      .ok ⟨⟨pageRoot, []⟩, [.text "a < b && c".toList]⟩ := by
  have hcode : IsInert codeBody :=
    ⟨by decide, by decide +kernel, by decide +kernel, by decide +kernel⟩
  have hdata : IsInert dataBody :=
    ⟨by decide, by decide +kernel, by decide +kernel, by decide +kernel⟩
  exact ⟨hcode, hdata, (build_verbatim hcode).1 _ (by decide) (by decide +kernel),
    (build_verbatim hdata).2 (by unfold IsWhole; decide +kernel)⟩

/-- A body that holds another opaque element. -/
def nestedBody : Text := "<style>a</style>".toList

/-- Such a body is not taken verbatim: it is wrapped a second time, inside the section that holds
it. -/
theorem build_nestedBody : (∀ c ∈ nestedBody, Xml.isSectionChar c) ∧
    somewhere (beginsEnd "script".toList) nestedBody = false ∧ ¬ sectionClosing <:+: nestedBody ∧
      (build Config.standard (around [pageRoot, "script".toList] nestedBody)).toOption.isNone ∧
        (build Config.standard (around [pageRoot] (sectionSource nestedBody))).toOption.isNone := by
  decide +kernel

/-- Nor is a body with a declaration for the root, or with a qualifier that no document can
declare. -/
example : (build Config.standard
    (around [pageRoot, "script".toList] " xmlns:apex=\"u\"".toList)).toOption.isNone ∧
    (build Config.standard
      (around [pageRoot, "script".toList] "if (a<b\u00b2:c)".toList)).toOption.isNone :=
  ⟨by decide +kernel, by decide +kernel⟩

end Visualforce.Markup
