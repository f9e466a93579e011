import Visualforce.Proofs.Page.ScriptElements

/-! # Pages of scripts

A page is written as script elements with gaps between them. The scan for elements finds each of
them with the gap behind it, so what the page refers to is put together from what its elements refer
to. Resources that are mentioned in values of attributes come on top of that.
-/
namespace Visualforce.Page
open Pattern Cursor Markup

variable {limit : Int} {text rest : Text} {before : Option Char}

/-- What stands between elements: nothing opens an element or mentions a resource. -/
structure IsScriptGap (gap : Text) : Prop where
  opening : hasAnyCase scriptOpening gap = false
  unmarked : hasResources gap = false

instance (gap : Text) : Decidable (IsScriptGap gap) :=
  decidable_of_iff (hasAnyCase scriptOpening gap = false ∧ hasResources gap = false)
    ⟨fun h => ⟨h.1, h.2⟩, fun h => ⟨h.opening, h.unmarked⟩⟩

structure ScriptPage where
  first : Text
  parts : List (ScriptElement × Text)
  gaps : ∀ gap ∈ first :: parts.map Prod.snd, IsScriptGap gap

namespace ScriptPage

variable (page : ScriptPage)

def source : Text := page.first ++ page.parts.flatMap fun part => part.1.source ++ part.2

def elements : List ScriptElement := page.parts.map Prod.fst

def attributes : List ScriptAttribute := page.elements.flatMap ScriptElement.attributes

end ScriptPage

theorem quiet_gap {gap : Text} (hgap : IsScriptGap gap) (hrest : ∀ c ∈ rest.head?, c = '<') :
    Quiet scriptElement before gap rest := by
  refine quiet_of_forall fun front c more heq => ?_
  refine Option.eq_none_iff_forall_ne_some.mpr fun hit hmatch => ?_
  obtain ⟨_, hopening, -⟩ := leads_append.mp (leads_of_matchAt hmatch).2
  obtain ⟨_, hopening, -⟩ := leads_append.mp hopening
  obtain ⟨_, hopening, -⟩ := leads_append.mp hopening
  have hbegins : beginsWithName scriptOpening (c :: (more ++ rest)) :=
    beginsWithName_of_leads hopening
  have hfront : beginsWithName scriptOpening (c :: more) := by
    cases rest with
    | nil => rwa [List.append_nil] at hbegins
    | cons d rest =>
      obtain rfl := hrest d rfl
      exact beginsWithName_bracket (by decide) hbegins
  have hnone := Text.begins_of_suffix hgap.opening ⟨front, heq.symm⟩ (List.cons_ne_nil c more)
  exact Bool.false_ne_true (hnone.symm.trans hfront)

/-- An element ends where the gap behind it begins, and nothing is found in the gap. -/
theorem yields_part {element : ScriptElement} {gap : Text} (hgap : IsScriptGap gap)
    (h : ∀ attr ∈ element.attributes, attr.IsClear) :
    Yields scriptElement (seen (cutScript limit)) (fun rest => ∀ c ∈ rest.head?, c = '<')
      (element.source ++ gap)
      [element.reference limit] := by
  refine .of_hit ?_ fun before rest hrest => ?_
  · rintro rest - c ⟨⟩
    rfl
  · obtain ⟨hit, hmatch, hstop, hattributes, hbody⟩ := element.exists_matchAt before (gap ++ rest)
    refine ⟨hit, some '>', gap, ?_, hstop, ?_, ScriptElement.cutScript_eq h hattributes hbody,
      quiet_gap hgap hrest⟩
    · rwa [List.append_assoc]
    · simp only [ScriptElement.source, List.length_append, List.length_cons]
      omega

/-- The scan for elements finds those that are written. -/
theorem filterMap_cutScript (page : ScriptPage) (h : ∀ attr ∈ page.attributes, attr.IsClear) :
    (scriptElement.hits page.source).filterMap (cutScript limit) =
      page.elements.filterMap (·.reference limit) := by
  have hpart : ∀ part ∈ page.parts, Yields scriptElement (seen (cutScript limit))
    (fun rest => ∀ c ∈ rest.head?, c = '<')
      (part.1.source ++ part.2) [part.1.reference limit] := by
    intro part hmem
    refine yields_part (page.gaps part.2 (.tail _ (List.mem_map_of_mem hmem))) fun attr hattr =>
      h attr ?_
    exact List.mem_flatMap.mpr ⟨part.1, List.mem_map_of_mem hmem, hattr⟩
  have hparts := Yields.flatMap hpart
  have hend : ∀ c ∈ ([] : Text).head?, c = '<' := fun c hmem => absurd hmem (Option.not_mem_none c)
  obtain ⟨after, hscan⟩ := hparts.scans (behind none page.first) [] hend
  have hfirst : Quiet scriptElement none page.first _ :=
    quiet_gap (page.gaps page.first List.mem_cons_self) (hparts.ahead [] hend)
  have hhits : (scriptElement.hits page.source).map (cutScript limit) =
    page.elements.map (·.reference limit) := by
    have hhits := ((hfirst.scans_seen _).append hscan).hits
    rw [List.append_nil, List.nil_append, ← List.map_eq_flatMap] at hhits
    rw [ScriptPage.source, hhits, ScriptPage.elements, List.map_map]
    rfl
  calc (scriptElement.hits page.source).filterMap (cutScript limit)
      = ((scriptElement.hits page.source).map (cutScript limit)).filterMap id := by
        rw [List.filterMap_map]; rfl
    _ = page.elements.filterMap (·.reference limit) := by rw [hhits, List.filterMap_map]; rfl

theorem hasResources_eq_false_iff : hasResources text = false ↔ ∀ mark ∈ resourceMarks, ¬ mark <:+:
    text := by
  simp only [hasResources, List.any_eq_false, Text.has_iff_isInfix]

/-- Each mark holds a dollar or a colon. -/
def IsMarkless (text : Text) : Prop := ∀ c ∈ text, c ≠ '$' ∧ c ≠ ':'

theorem IsMarkless.append {first second : Text} (hfirst : IsMarkless first)
    (hsecond : IsMarkless second) :
    IsMarkless (first ++ second) :=
  List.forall_mem_append.mpr ⟨hfirst, hsecond⟩

theorem isMarkless_of_forall (accepts : Char → Bool) (h : ∀ c ∈ text, accepts c)
    (hmarks : accepts '$' = false ∧ accepts ':' = false) : IsMarkless text := by
  intro c hc
  have haccepts := h c hc
  refine ⟨?_, ?_⟩
  · rintro rfl
    exact Bool.false_ne_true (hmarks.1.symm.trans haccepts)
  · rintro rfl
    exact Bool.false_ne_true (hmarks.2.symm.trans haccepts)

theorem isMarkless_of_isWord (h : ∀ c ∈ text, Text.isWord c) : IsMarkless text :=
  isMarkless_of_forall Text.isWord h (by decide)

theorem isMarkless_of_isBlank (h : ∀ c ∈ text, Text.isBlank c) : IsMarkless text :=
  isMarkless_of_forall Text.isBlank h (by decide)

theorem IsMarkless.hasResources (h : IsMarkless text) : hasResources text = false := by
  refine hasResources_eq_false_iff.mpr fun mark hmark hpart => ?_
  have hmarked : ∀ mark ∈ resourceMarks, '$' ∈ mark ∨ ':' ∈ mark := by decide
  rcases hmarked mark hmark with hmem | hmem
  · exact (h '$' (hpart.subset hmem)).1 rfl
  · exact (h ':' (hpart.subset hmem)).2 rfl

/-- What is read in a text is read on both sides of each bracket and each quote, and nothing where
no mark is. -/
structure ReadsMarks {α : Type} (read : Text → List α) : Prop where
  append_cons : ∀ c ∈ ['<', '>', '"'], ∀ first second, read (first ++ c :: second) = read first ++
    read second
  eq_nil : ∀ text, hasResources text = false → read text = []

def markAt? (text : Text) : Option Text := (resourceMarks.filter (·.isPrefixOf text)).head?

def marksIn (text : Text) : List Text := text.tails.filterMap markAt?

theorem markAt?_eq_none_iff : markAt? text = none ↔ ∀ mark ∈ resourceMarks, ¬ mark <+: text := by
  simp only [markAt?, List.head?_eq_none_iff, List.filter_eq_nil_iff, List.isPrefixOf_iff_prefix]

theorem marksIn_eq_nil_iff : marksIn text = [] ↔ hasResources text = false := by
  rw [hasResources_eq_false_iff, marksIn, List.filterMap_eq_nil_iff]
  simp only [List.mem_tails, markAt?_eq_none_iff]
  constructor
  · rintro h mark hmark ⟨front, rest, rfl⟩
    exact h (mark ++ rest) ⟨front, by rw [List.append_assoc]⟩ mark hmark
      (List.prefix_append mark rest)
  · exact fun h tail htail mark hmark hbegins => h mark hmark (hbegins.isInfix.trans htail.isInfix)

theorem readsMarks_marksIn : ReadsMarks marksIn where
  append_cons c hc := by
    have hout : ∀ c ∈ ['<', '>', '"'], ∀ mark ∈ resourceMarks, c ∉ mark := by decide
    refine Text.filterMap_tails_append_cons rfl fun first second => congrArg List.head? ?_
    refine List.filter_congr fun mark hmark => Bool.eq_iff_iff.mpr ?_
    rw [List.isPrefixOf_iff_prefix, List.isPrefixOf_iff_prefix]
    exact ⟨Text.isPrefix_stop (hout c hc mark hmark), fun h => h.trans (List.prefix_append first _)⟩
  eq_nil text h := marksIn_eq_nil_iff.mpr h

theorem readsMarks_resourceNames : ReadsMarks resourceNames where
  append_cons c hc := by
    have hends : ∀ c ∈ ['<', '>', '"'], c ∉ resourceMark ∧ Text.isWord c = false := by decide
    exact resourceNames_append_cons ⟨(hends c hc).1, (hends c hc).2⟩
  eq_nil text h :=
    resourceNames_of_not_isInfix (hasResources_eq_false_iff.mp h resourceMark List.mem_cons_self)

namespace ReadsMarks

variable {α : Type} {read : Text → List α} (h : ReadsMarks read) {front : Text}
include h

theorem append_cons_of_markless (hfront : IsMarkless front) {c : Char} (hc : c ∈ ['<', '>', '"'])
    (rest : Text) :
    read (front ++ c :: rest) = read rest := by
  rw [h.append_cons c hc, h.eq_nil front hfront.hasResources, List.nil_append]

theorem attributes {values : List α}
    (hrest : ∀ front, IsMarkless front → read (front ++ rest) = values)
    (hfront : IsMarkless front) (attributes : List ScriptAttribute) :
    read (front ++ (attributes.flatMap ScriptAttribute.source ++ rest)) =
      attributes.flatMap (read ·.value) ++ values := by
  -- `front` is what is written since the last bracket or quote; it is empty behind each value
  induction attributes generalizing front with
  | nil => exact hrest front hfront
  | cons attr attributes ih =>
    have hname : IsMarkless attr.name :=
      isMarkless_of_forall isAttributeChar attr.name_chars (by decide)
    have hopening : IsMarkless (front ++ (attr.gap ++ (attr.name ++ ['=']))) :=
      hfront.append
        ((isMarkless_of_isBlank attr.gap_blank).append
        (hname.append (by unfold IsMarkless; decide)))
    calc read (front ++ ((attr :: attributes).flatMap ScriptAttribute.source ++ rest))
        = read ((front ++ (attr.gap ++ (attr.name ++ ['=']))) ++ '"' :: (attr.value ++ '"' ::
            ([] ++ (attributes.flatMap ScriptAttribute.source ++ rest)))) := by
          simp [ScriptAttribute.source, ScriptAttribute.assignment]
      _ = read attr.value ++ read ([] ++ (attributes.flatMap ScriptAttribute.source ++ rest)) := by
          rw [h.append_cons_of_markless hopening (by decide), h.append_cons _ (by decide)]
      _ = (attr :: attributes).flatMap (read ·.value) ++ values := by
          rw [ih (List.forall_mem_nil _), List.flatMap_cons, List.append_assoc]

theorem ending (element : ScriptElement) (hfront : IsMarkless front) (rest : Text) :
    read (front ++ (element.trail ++ (element.ending ++ rest))) = read rest := by
  have hopening := hfront.append (isMarkless_of_isBlank element.trail_blank)
  rw [ScriptElement.ending]
  cases element.content with
  | none =>
    have hslash : IsMarkless (front ++ element.trail ++ ['/']) :=
      hopening.append (by unfold IsMarkless; decide)
    rw [← h.append_cons_of_markless hslash (by decide : '>' ∈ _) rest]
    simp
  | some content =>
    have hname : ∀ c ∈ content.closing, Text.isWord c :=
      content.closing_same.isWord (by decide : ∀ c ∈ scriptName, c.isLower)
    have hclosing : IsMarkless (['/'] ++ (content.closing ++ content.trail)) :=
      IsMarkless.append (by unfold IsMarkless; decide)
        ((isMarkless_of_isWord hname).append (isMarkless_of_isBlank content.trail_blank))
    calc read (front ++ (element.trail ++
          ('>' :: (content.body ++ '<' :: '/' :: (content.closing ++ (content.trail ++ ['>']))) ++
            rest)))
        = read ((front ++ element.trail) ++ '>' :: (content.body ++ '<' ::
            ((['/'] ++ (content.closing ++ content.trail)) ++ '>' :: rest))) := by simp
      _ = read content.body ++ read rest := by
          rw [h.append_cons_of_markless hopening (by decide), h.append_cons _ (by decide),
            h.append_cons_of_markless hclosing (by decide)]
      _ = read rest := by rw [h.eq_nil _ content.body_unmarked, List.nil_append]

theorem element {gap : Text} (hgap : IsScriptGap gap) (element : ScriptElement) (rest : Text) :
    read (gap ++ (element.source ++ rest)) = element.attributes.flatMap (read ·.value) ++
      read rest := by
  have hname : ∀ c ∈ element.name, Text.isWord c :=
    element.name_same.isWord (by decide : ∀ c ∈ scriptName, c.isLower)
  calc read (gap ++ (element.source ++ rest))
      = read (gap ++ '<' :: (element.name ++ (element.attributes.flatMap ScriptAttribute.source ++
          (element.trail ++ (element.ending ++ rest))))) := by
            simp [ScriptElement.source, ScriptElement.inside]
    _ = element.attributes.flatMap (read ·.value) ++ read rest := by
        rw [h.append_cons _ (by decide), h.eq_nil gap hgap.unmarked, List.nil_append,
          h.attributes (fun front hfront => h.ending element hfront rest)
          (isMarkless_of_isWord hname)]

theorem page (page : ScriptPage) : read page.source = page.attributes.flatMap (read ·.value) := by
  obtain ⟨first, parts, hgaps⟩ := page
  rw [ScriptPage.source, ScriptPage.attributes, ScriptPage.elements]
  induction parts generalizing first with
  | nil =>
    rw [List.flatMap_nil, List.append_nil]
    exact h.eq_nil first (hgaps first List.mem_cons_self).unmarked
  | cons part parts ih =>
    obtain ⟨hfirst, hgaps⟩ := List.forall_mem_cons.mp hgaps
    rw [List.flatMap_cons, List.append_assoc, h.element hfirst, ih part.2 hgaps]
    simp

end ReadsMarks

/-- A directive begins with the bracket of its tag and a mark. -/
theorem exists_directiveName {found : Text × Text} (h : directiveAt? text = some found) :
    ∃ mark ∈ resourceMarks, mark <:+: text := by
  simp only [directiveAt?, Option.bind_eq_bind, Option.bind_eq_some_iff, Option.or_eq_some_iff] at h
  obtain ⟨behind, hbehind, more, hmore, -⟩ := h
  rw [Text.dropPrefix?_eq_some_iff.mp hbehind]
  rcases hmore with hmore | ⟨-, hmore⟩
  · refine ⟨"apex:includeScript".toList, by decide, ['<'], more, ?_⟩
    rw [Text.dropPrefix?_eq_some_iff.mp hmore]
    simp
  · refine ⟨"apex:stylesheet".toList, by decide, ['<'], more, ?_⟩
    rw [Text.dropPrefix?_eq_some_iff.mp hmore]
    simp

/-- Where no directive is named there is none. -/
theorem directivesIn_of_hasResources (h : hasResources text = false) : directivesIn text = [] := by
  rw [hasResources_eq_false_iff] at h
  induction text with
  | nil => exact directivesIn_nil
  | cons c text ih =>
    have hnone : directiveAt? (c :: text) = none := by
      refine Option.eq_none_iff_forall_ne_some.mpr fun found hfound => ?_
      obtain ⟨mark, hmark, hpart⟩ := exists_directiveName hfound
      exact h mark hmark hpart
    rw [directivesIn_cons_of_none hnone]
    exact ih fun mark hmark hpart => h mark hmark (hpart.trans (List.suffix_cons c text).isInfix)

/-- The scripts of a page whose attributes are clear are those that its elements refer to, and
behind them what is referred to in values of attributes: by directives, and by mentions of
resources. -/
theorem scripts_elements (limit : Int) (page : ScriptPage)
    (h : ∀ attr ∈ page.attributes, attr.IsClear) :
    scriptsIn (some limit) page.source =
      .ok (dedupe (page.elements.filterMap (·.reference limit) ++
        (directivesIn page.source).flatMap included ++
        (page.attributes.flatMap (resourceNames ·.value)).map (⟨.staticResource, ·⟩))) ∧
    ((∀ attr ∈ page.attributes, hasResources attr.value = false) →
      scriptsIn (some limit) page.source =
        .ok (dedupe (page.elements.filterMap (·.reference limit)))) := by
  have hscripts := scriptsIn_some limit page.source
  rw [filterMap_cutScript page h, resourcesIn_eq, readsMarks_resourceNames.page] at hscripts
  refine ⟨hscripts, fun hvalues => ?_⟩
  have hmarks : marksIn page.source = [] := by
    rw [readsMarks_marksIn.page]
    exact List.flatMap_eq_nil_iff.mpr fun attr hattr => marksIn_eq_nil_iff.mpr (hvalues attr hattr)
  have hnames : page.attributes.flatMap (resourceNames ·.value) = [] :=
    List.flatMap_eq_nil_iff.mpr fun attr hattr => readsMarks_resourceNames.eq_nil _
      (hvalues attr hattr)
  rw [hscripts, hnames, directivesIn_of_hasResources (marksIn_eq_nil_iff.mp hmarks)]
  simp

theorem space_ne_nil : ([' '] : Text) ≠ [] := List.cons_ne_nil ' ' []

theorem isBlank_space : ∀ c ∈ ([' '] : Text), Text.isBlank c := by decide

theorem isBlank_nil : ∀ c ∈ ([] : Text), Text.isBlank c := List.forall_mem_nil _

def attributeAt (name value : String) (hname : ∀ c ∈ name.toList, isAttributeChar c)
    (hvalue : ∀ c ∈ value.toList, isQuote c = false ∧ c ≠ '>') : ScriptAttribute :=
  ⟨[' '], name.toList, value.toList, space_ne_nil, isBlank_space, hname, hvalue⟩

/-- An element that ends in its start tag, with an address behind other attributes. -/
def addressElement : ScriptElement where
  name := "SCRIPT".toList
  attributes := [attributeAt "data-main" "x?src=1" (by decide) (by decide),
    attributeAt "Src" " /a.js " (by decide) (by decide), attributeAt "async" "" (by decide)
    (by decide)]
  trail := [' ']
  content := none
  name_same := by decide
  trail_blank := isBlank_space

/-- An element with an empty address and with markup in its body. -/
def codeElement : ScriptElement where
  name := "script".toList
  attributes := [attributeAt "src" "" (by decide) (by decide)]
  trail := []
  content := some
    { body := " if (a<b) s = \"<script src='x'>\"; ".toList
      closing := "ScRiPt".toList
      trail := [' ']
      closing_same := by decide
      trail_blank := isBlank_space
      body_closed := by decide +kernel
      body_unmarked := by decide +kernel }
  name_same := by decide
  trail_blank := isBlank_nil

def codePage : ScriptPage where
  first := "<apex:page>".toList
  parts := [(addressElement, "\n".toList), (codeElement, []),
    (addressElement, "</apex:page>".toList)]
  gaps := by decide +kernel

theorem isClear_codePage : ∀ attr ∈ codePage.attributes, attr.IsClear := by
  intro attr hattr
  refine ⟨?_, not_endsInAddressSign ?_⟩
  · revert attr
    decide +kernel
  · revert attr
    decide +kernel

theorem scripts_codePage : (∀ attr ∈ codePage.attributes, attr.IsClear) ∧
    codePage.source =
      "<apex:page><SCRIPT data-main=\"x?src=1\" Src=\" /a.js \" async=\"\" />\n".toList ++
      "<script src=\"\"> if (a<b) s = \"<script src='x'>\"; </ScRiPt >".toList ++
      "<SCRIPT data-main=\"x?src=1\" Src=\" /a.js \" async=\"\" /></apex:page>".toList ∧
    scriptsIn (some 8) codePage.source =
      .ok [⟨.externalUrl, "/a.js".toList⟩, ⟨.inlineScript, "if (a<b)...".toList⟩] := by
  refine ⟨isClear_codePage, by decide +kernel, ?_⟩
  rw [(scripts_elements 8 codePage isClear_codePage).2 (by decide +kernel)]
  decide +kernel

def resourceAddressPage : ScriptPage where
  first := []
  parts := [(⟨"script".toList, [attributeAt "src" "\x7b!$Resource.jq\x7d" (by decide) (by decide)],
    [], some ⟨[], "script".toList, [], by decide, isBlank_nil, rfl, by decide⟩, by
    decide, isBlank_nil⟩, [])]
  gaps := by decide +kernel

/-- The resource in an address is listed besides the address. -/
theorem scripts_resourceAddressPage :
    resourceAddressPage.source = "<script src=\"\x7b!$Resource.jq\x7d\"></script>".toList ∧
    scriptsIn (some 80) resourceAddressPage.source =
      .ok [⟨.externalUrl, "\x7b!$Resource.jq\x7d".toList⟩, ⟨.staticResource, "jq".toList⟩] ∧
    scriptsIn (some 80) resourceAddressPage.source ≠
      .ok (dedupe (resourceAddressPage.elements.filterMap (·.reference 80))) := by
  decide +kernel

end Visualforce.Page
