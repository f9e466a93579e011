import Visualforce.Proofs.Pattern.Leads
import Visualforce.Proofs.Page.Mentions
import Visualforce.Proofs.Page.RecoverySteps

/-! # Contents of every page

Whatever a page collects is the trimmed content of a merge field that holds more than blanks, and so
is what the tree of a page binds. What a recovery binds is trimmed as well, but it is empty where
the field holds blanks only.
-/
namespace Visualforce

namespace Expression
open Pattern

/-- The content of an expression: not empty, without blanks around it and without a closing
brace. -/
structure IsContent (content : Text) : Prop where
  nonempty : content ≠ []
  trimmed : Text.IsTrimmed content
  braceless : '\x7d' ∉ content

theorem find_contents (text : Text) : ∀ content ∈ find text, IsContent content := by
  obtain ⟨fields, -, hfind⟩ := exists_carries_find text
  intro content hcontent
  rw [hfind] at hcontent
  obtain ⟨field, -, rfl⟩ := List.mem_map.mp hcontent
  exact ⟨field.content_ne, field.trimmed, field.braceless⟩

/-- Somewhere in the text the delimiters of an expression have only blanks between them. -/
def HasBlankField (text : Text) : Prop :=
  ∃ blanks, (∀ c ∈ blanks, Text.isBlank c) ∧ opening ++ (blanks ++ ['\x7d']) <:+: text

/-- What lies between the delimiters of a merge field, and what its group captures. -/
theorem mergeField_inv {here there : Place Unit} (h : Leads mergeField here there) :
    ∃ first content last span, here.cursor.rest = opening ++
      (first ++ (content ++ (last ++ '\x7d' :: there.cursor.rest))) ∧
      (∀ c ∈ first, Text.isBlank c) ∧ (∀ c ∈ last, Text.isBlank c) ∧ '\x7d' ∉ content ∧
      there.groups = ((), span) :: here.groups ∧ span.text = content := by
  rw [mergeField_eq] at h
  obtain ⟨afterLast, h, hclose⟩ := leads_append.mp h
  obtain ⟨afterContent, h, hlast⟩ := leads_append.mp h
  obtain ⟨afterFirst, h, hgroup⟩ := leads_append.mp h
  obtain ⟨afterOpening, hopening, hfirst⟩ := leads_append.mp h
  obtain ⟨afterBody, hbody, rfl⟩ := leads_group.mp hgroup
  obtain ⟨hrestOpening, hgroupsOpening⟩ := hopening.exactly_inv
  obtain ⟨first, hrestFirst, hblankFirst, hgroupsFirst⟩ := hfirst.manyOne_inv
  obtain ⟨one, hone, hmore⟩ := leads_append.mp hbody
  obtain ⟨c, hrestOne, hc, hgroupsOne⟩ := hone.one_inv
  obtain ⟨more, hrestMore, hbraces, hgroupsMore⟩ := hmore.manyOne_inv
  obtain ⟨last, hrestLast, hblankLast, hgroupsLast⟩ := hlast.manyOne_inv
  obtain ⟨hrestClose, hgroupsClose⟩ := hclose.char_inv
  have hcontent : afterFirst.cursor.rest = (c :: more) ++ afterBody.cursor.rest := by
    rw [hrestOne, hrestMore, List.cons_append]
  refine ⟨first, c :: more, last, afterFirst.cursor.spanTo afterBody.cursor, ?_, hblankFirst,
    hblankLast, ?_, ?_, Cursor.spanTo_text_of_rest hcontent⟩
  · change afterBody.cursor.rest = _ at hrestLast
    rw [hrestOpening, hrestFirst, hcontent, hrestLast, hrestClose]
  · intro hmem
    rcases List.mem_cons.mp hmem with rfl | hmem
    · exact absurd hc (by decide)
    · exact absurd (hbraces _ hmem) (by decide)
  · rw [hgroupsClose, hgroupsLast, hgroupsMore, hgroupsOne, hgroupsFirst, hgroupsOpening]

end Expression

namespace Page
open Pattern Markup Expression

variable {config : Config} {text : Text} {page : Page} {IsBound : Text → Prop}

/-- What a recovery binds has no closing brace, and where it is blank the text holds a field of
blanks only. -/
theorem findAll_boundExpression {tag : Pattern Unit} {name : String} {content : Text}
    (h : content ∈ (boundExpression tag name).findAll () text) :
    '\x7d' ∉ content ∧ (Text.isBlankText content → HasBlankField text) := by
  obtain ⟨hit, hhit, rfl⟩ := List.mem_map.mp h
  obtain ⟨start, hstart, hmatch⟩ := exists_matchAt_of_mem_hits hhit
  obtain ⟨-, hleads⟩ := leads_of_matchAt hmatch
  rw [boundExpression] at hleads
  obtain ⟨middle, hfront, hfield⟩ := leads_append.mp hleads
  obtain ⟨first, content, last, span, hrest, hfirst, hlast, hbrace, hgroups, rfl⟩ :=
    mergeField_inv hfield
  have hgroup : hit.group () = span.text := by
    change hit.groups = _ at hgroups
    rw [Hit.group, Hit.group?, hgroups]
    rfl
  rw [hgroup]
  refine ⟨hbrace, fun hblank => ⟨first ++ (span.text ++ last), ?_, ?_⟩⟩
  · exact List.forall_mem_append.mpr
      ⟨hfirst, List.forall_mem_append.mpr ⟨List.all_eq_true.mp hblank, hlast⟩⟩
  · have hsuffix : middle.cursor.rest <:+ text := hfront.rest_suffix.trans hstart
    rw [hrest] at hsuffix
    have hbegins : opening ++ (first ++ (span.text ++ last) ++ ['\x7d']) <+:
        opening ++ (first ++ (span.text ++ (last ++ '\x7d' :: hit.stop.rest))) :=
          ⟨hit.stop.rest, by simp⟩
    exact hbegins.isInfix.trans hsuffix.isInfix

/-- The expressions and references of a page are contents; what it binds is of the given kind. -/
structure HasContents (IsBound : Text → Prop) (page : Page) : Prop where
  expressions : ∀ content ∈ page.expressions, IsContent content
  references : ∀ reference ∈ page.fieldReferences, IsContent reference.expression
  inputBindings : ∀ content ∈ page.inputBindings, IsBound content
  buttonActions : ∀ content ∈ page.buttonActions, IsBound content

namespace HasContents

theorem empty (mode : Mode) : HasContents IsBound (Page.empty mode) := by
  constructor <;> simp [Page.empty]

theorem mono {Other : Text → Prop} (h : HasContents IsBound page)
    (himp : ∀ content, IsBound content → Other content) :
    HasContents Other page :=
  ⟨h.expressions, h.references, fun content hc => himp content (h.inputBindings content hc),
    fun content hc => himp content (h.buttonActions content hc)⟩

theorem collect (h : HasContents IsBound page) (text context : Text) :
    HasContents IsBound (collect page text context) := by
  have hfound := find_contents text
  refine ⟨?_, ?_, h.inputBindings, h.buttonActions⟩
  · simp only [Page.collect, Collection.scan_eq]
    refine List.forall_mem_append.mpr ⟨h.expressions, fun content hmem => ?_⟩
    exact hfound content (List.mem_filter.mp hmem).1
  · simp only [Page.collect, Collection.scan_eq]
    refine List.forall_mem_append.mpr ⟨h.references, fun reference hmem => ?_⟩
    obtain ⟨content, hcontent, rfl⟩ := List.mem_map.mp hmem
    exact hfound content (List.mem_filter.mp hcontent).1

theorem bind (h : HasContents IsContent page) (head : Head) (attr : Attribute) :
    HasContents IsContent (bind head attr page) := by
  have hfirst : ∀ name suits, ∀ content ∈ firstIn name suits head attr, IsContent content := by
    intro name suits content hcontent
    unfold firstIn at hcontent
    split at hcontent
    · exact find_contents attr.value content (List.mem_of_head? (Option.mem_toList.mp hcontent))
    · cases hcontent
  have hinputs := List.forall_mem_append.mpr ⟨h.inputBindings, hfirst "value".toList isInputName⟩
  have hactions :=
    List.forall_mem_append.mpr ⟨h.buttonActions, hfirst "action".toList isCommandName⟩
  rw [← bind_inputBindings] at hinputs
  rw [← bind_buttonActions] at hactions
  obtain ⟨bs, cs, hbind⟩ := bind_frame head attr page
  rw [hbind] at hinputs hactions ⊢
  exact ⟨h.expressions, h.references, hinputs, hactions⟩

theorem visitAttributes (h : HasContents IsContent page) (head : Head) :
    HasContents IsContent (visitAttributes head page) := by
  rw [Page.visitAttributes]
  induction head.attributes generalizing page with
  | nil => exact h
  | cons attr attributes ih =>
    rw [List.foldl_cons]
    exact ih ((h.collect attr.value _).bind head attr)

theorem visitHead {head : Head} {children : List Node} {walk walk' : Walk}
    (h : HasContents IsContent walk.page)
    (hvisit : visitHead config head children walk = .ok walk') :
    HasContents IsContent walk'.page := by
  have hattrs := h.visitAttributes head
  obtain ⟨usages, names, forms, supports, panels, hpage⟩ := visitHead_frame hvisit
  rw [hpage]
  exact ⟨hattrs.expressions, hattrs.references, hattrs.inputBindings, hattrs.buttonActions⟩

theorem ofTree {root : Element} (h : ofTree config root = .ok page) :
    HasContents IsContent page := by
  obtain ⟨walk, hwalk, rfl⟩ := ofTree_eq_ok h
  have hroot : HasContents IsContent (ofRoot root.head) := by
    constructor <;> simp [ofRoot, Page.empty]
  have hpage := visitAll_preserves (P := HasContents IsContent) (fun _ _ _ hp => hp.collect _ _)
    (fun _ _ _ _ hhead hp => hp.visitHead hhead) [root.head.tag] root.children _ walk hwalk
    (hroot.visitAttributes root.head)
  exact ⟨hpage.expressions, hpage.references, hpage.inputBindings, hpage.buttonActions⟩

end HasContents

/-- What a recovery binds: trimmed, without a closing brace, and perhaps empty. -/
def IsEmptyOrContent (content : Text) : Prop := content = [] ∨ IsContent content

theorem isEmptyOrContent_trim {content : Text} (h : '\x7d' ∉ content) :
    IsEmptyOrContent (Text.trim content) := by
  by_cases hempty : Text.trim content = []
  · exact .inl hempty
  · exact .inr ⟨hempty, Text.isTrimmed_trim content, fun hmem => h (Text.mem_of_mem_trim hmem)⟩

theorem Step.run_hasContents (config : Config) (text : Text) (h : HasContents IsEmptyOrContent page)
    (step : Step) :
    HasContents IsEmptyOrContent (step.run config text page).1 := by
  have hbound :
    ∀ tag name, ∀ content ∈ ((boundExpression tag name).findAll () (visible config text)).map
    Text.trim,
      IsEmptyOrContent content := by
    intro tag name
    refine List.forall_mem_map.mpr fun content hcontent => ?_
    exact isEmptyOrContent_trim (findAll_boundExpression hcontent).1
  cases step with
  | expressions => exact h.collect text documentContext
  | bindings =>
    exact ⟨h.expressions, h.references, List.forall_mem_append.mpr ⟨h.inputBindings, hbound _ _⟩,
      List.forall_mem_append.mpr ⟨h.buttonActions, hbound _ _⟩⟩
  | outputPanels =>
    obtain ⟨panels, error, hrun⟩ :=
      readPanels_frame config (panelOpening.hits (visible config text)) page
    rw [Step.run, hrun]
    exact ⟨h.expressions, h.references, h.inputBindings, h.buttonActions⟩
  | settings | components | blocks | actionSupports =>
    exact ⟨h.expressions, h.references, h.inputBindings, h.buttonActions⟩

theorem HasContents.withWarnings (h : HasContents IsBound page) (warnings : List Text) :
    HasContents IsBound { page with warnings := warnings } :=
  ⟨h.expressions, h.references, h.inputBindings, h.buttonActions⟩

theorem runSteps_hasContents (text : Text) (h : HasContents IsEmptyOrContent page)
    (steps : List Step) :
    HasContents IsEmptyOrContent (runSteps config text steps page) := by
  refine runSteps_preserves (P := HasContents IsEmptyOrContent) (fun step page hp => ?_) steps h
  have hrun := Step.run_hasContents config text hp step
  rw [runStep]
  split
  · rename_i after hafter
    rwa [hafter] at hrun
  · rename_i after error hafter
    rw [hafter] at hrun
    exact hrun.withWarnings _

theorem readWith_hasContents (config : Config) (text : Text) :
    HasContents IsEmptyOrContent (readWith config text) := by
  by_cases hsize : config.isOversize text = true
  · rw [readWith_oversize hsize]
    exact runSteps_hasContents text (.empty .lightweight) Step.light
  · rw [Bool.not_eq_true] at hsize
    cases htree : readTree config text with
    | ok page =>
      obtain ⟨root, -, hroot⟩ := readTree_eq_ok htree
      rw [readWith_tree hsize htree]
      exact (HasContents.ofTree hroot).mono fun _ => .inr
    | error error =>
      rw [readWith_fallback hsize htree]
      exact (runSteps_hasContents text (.empty .fallback) Step.all).withWarnings _

def BindsBlank (pattern : Pattern Unit) (visible : Text) : Prop :=
  ∃ content ∈ pattern.findAll () visible, Text.isBlankText content

theorem nil_mem_map_trim {pattern : Pattern Unit} {visible : Text} :
    [] ∈ (pattern.findAll () visible).map Text.trim ↔ BindsBlank pattern visible := by
  rw [List.mem_map]
  exact exists_congr fun content => and_congr_right fun _ => Text.trim_eq_nil_iff

/-- Nothing empty is bound but by a recovery that finds a field of blanks only. -/
theorem readWith_binds_nil (config : Config) (text : Text) :
    ([] ∈ (readWith config text).inputBindings ↔
      (readWith config text).mode = .fallback ∧ BindsBlank inputBinding (visible config text)) ∧
    ([] ∈ (readWith config text).buttonActions ↔
      (readWith config text).mode = .fallback ∧ BindsBlank buttonAction (visible config text)) := by
  by_cases hsize : config.isOversize text = true
  · have hmode : (recoverLight config text).mode = .lightweight := runSteps_mode config text _ _
    rw [readWith_oversize hsize, recoverLight_eq] at *
    simp [lightened]
  · rw [Bool.not_eq_true] at hsize
    cases htree : readTree config text with
    | ok page =>
      obtain ⟨root, -, hroot⟩ := readTree_eq_ok htree
      have hcontents := HasContents.ofTree hroot
      have hinputs : [] ∉ page.inputBindings :=
        fun hmem => (hcontents.inputBindings [] hmem).nonempty rfl
      have hactions : [] ∉ page.buttonActions :=
        fun hmem => (hcontents.buttonActions [] hmem).nonempty rfl
      rw [readWith_tree hsize htree, (readTree_mode htree).1]
      simp [hinputs, hactions]
    | error error =>
      have hmode : (recover config text).mode = .fallback := runSteps_mode config text _ _
      obtain ⟨hinputs, hactions⟩ := recover_bindings config text
      rw [readWith_fallback hsize htree]
      simp [hmode, hinputs, hactions, nil_mem_map_trim, -List.mem_map]

theorem finish_hasContents (h : HasContents IsBound page) (config : Config) (text : Text) :
    HasContents IsBound (finish config text page) := by
  have hreferences := finish_references config text page
  obtain ⟨forms, remoting, resources, scripts, fragments, warnings, hraw⟩ :=
    readRawOrWarn_frame config text page
  rw [finish, hraw] at hreferences ⊢
  refine ⟨fun content hmem => ?_, fun reference hmem => ?_, fun content hmem => ?_,
    fun content hmem => ?_⟩
  · exact h.expressions content (mem_dedupe.mp ((rankAll_perm page.expressions).mem_iff.mp hmem))
  · have hshown :=
      List.mem_map_of_mem (f := fun reference => (reference.expression, reference.context)) hmem
    rw [hreferences] at hshown
    obtain ⟨before, hbefore, heq⟩ := List.mem_map.mp hshown
    rw [← (Prod.mk.inj heq).1]
    exact h.references before hbefore
  · exact h.inputBindings content (mem_dedupe.mp hmem)
  · exact h.buttonActions content (mem_dedupe.mp hmem)

theorem mem_finish_bindings (config : Config) (text : Text) (page : Page) (content : Text) :
    (content ∈ (finish config text page).inputBindings ↔ content ∈ page.inputBindings) ∧
      (content ∈ (finish config text page).buttonActions ↔ content ∈ page.buttonActions) := by
  obtain ⟨forms, remoting, resources, scripts, fragments, warnings, hraw⟩ :=
    readRawOrWarn_frame config text page
  rw [finish, hraw]
  exact ⟨mem_dedupe, mem_dedupe⟩

theorem parse_frame (config : Config) (text : Text) (metadata : Option Text) :
    ∃ version label warnings, parse config text metadata =
      { finish config text (readWith config text) with
      apiVersion := version, label := label, warnings := warnings } := by
  rw [parse]
  cases metadata.bind nonEmpty? with
  | none => exact ⟨_, _, _, rfl⟩
  | some document =>
    simp only [applyMetadata]
    cases Metadata.read document with
    | error error => exact ⟨_, _, _, rfl⟩
    | ok metadata => exact ⟨_, _, _, rfl⟩

theorem HasContents.nonempty (h : HasContents IsEmptyOrContent page)
    (hinputs : [] ∉ page.inputBindings)
    (hactions : [] ∉ page.buttonActions) : HasContents IsContent page := by
  refine ⟨h.expressions, h.references, fun content hmem => ?_, fun content hmem => ?_⟩
  · exact (h.inputBindings content hmem).resolve_left fun hempty => hinputs (hempty ▸ hmem)
  · exact (h.buttonActions content hmem).resolve_left fun hempty => hactions (hempty ▸ hmem)

/-- In every mode, with every configuration and all metadata, the expressions of a page and those of
its references are not empty, trimmed and without a closing brace, and so is everything bound and
invoked that is not empty. Something empty is bound or invoked exactly where a page is recovered
from its patterns and one of them finds a field of blanks only; the text that is searched then holds
such a field. -/
theorem ofSource_hasContents (config : Config) (source : Source) (metadata : Option Text) :
    HasContents IsEmptyOrContent (ofSource config source metadata) ∧
      ([] ∈ (ofSource config source metadata).inputBindings ↔
        (ofSource config source metadata).mode = .fallback ∧
        BindsBlank inputBinding (visible config source.toText)) ∧
      ([] ∈ (ofSource config source metadata).buttonActions ↔
        (ofSource config source metadata).mode = .fallback ∧
        BindsBlank buttonAction (visible config source.toText)) ∧
      (¬HasBlankField (visible config source.toText) →
        HasContents IsContent (ofSource config source metadata)) := by
  have hread := readWith_hasContents config source.toText
  obtain ⟨hinputs, hactions⟩ := readWith_binds_nil config source.toText
  have hmode : (ofSource config source metadata).mode = (readWith config source.toText).mode :=
    parse_mode config source.toText metadata
  obtain ⟨version, label, warnings, hpage⟩ := parse_frame config source.toText metadata
  have hfinish := finish_hasContents hread config source.toText
  have hcontents : HasContents IsEmptyOrContent (ofSource config source metadata) := by
    rw [ofSource, hpage]
    exact ⟨hfinish.expressions, hfinish.references, hfinish.inputBindings, hfinish.buttonActions⟩
  obtain ⟨hsameInputs, hsameActions⟩ :=
    mem_finish_bindings config source.toText (readWith config source.toText) []
  rw [← hmode, ← hsameInputs] at hinputs
  rw [← hmode, ← hsameActions] at hactions
  have hinputs : [] ∈ (ofSource config source metadata).inputBindings ↔
      (ofSource config source metadata).mode = .fallback ∧
        BindsBlank inputBinding (visible config source.toText) := by
    rw [← hinputs, ofSource, hpage]
  have hactions : [] ∈ (ofSource config source metadata).buttonActions ↔
      (ofSource config source metadata).mode = .fallback ∧
        BindsBlank buttonAction (visible config source.toText) := by
    rw [← hactions, ofSource, hpage]
  have hblank : ∀ tag name, BindsBlank (boundExpression tag name) (visible config source.toText) →
      HasBlankField (visible config source.toText) := by
    rintro tag name ⟨content, hfound, hblank⟩
    exact (findAll_boundExpression hfound).2 hblank
  refine ⟨hcontents, hinputs, hactions, fun hnone => hcontents.nonempty ?_ ?_⟩
  · exact fun hmem => hnone (hblank _ _ (hinputs.mp hmem).2)
  · exact fun hmem => hnone (hblank _ _ (hactions.mp hmem).2)

/-- A page that is not closed, with an input whose value holds a field of blanks only. -/
def blankFieldPage : Text := "<apex:page><apex:inputText value=\"\x7b! \x7d\"/>".toList

/-- The recovery binds the input to an empty expression. -/
theorem ofSource_blankFieldPage :
    (ofSource Config.standard (.text blankFieldPage) none).inputBindings = [[]] ∧
    ¬HasContents IsContent (ofSource Config.standard (.text blankFieldPage) none) := by
  have hbound : (ofSource Config.standard (.text blankFieldPage) none).inputBindings = [[]] :=
    Text.of_characters
      (fun text => (ofSource Config.standard (.text text) none).inputBindings = [[]])
      (by decide +kernel)
  refine ⟨hbound, fun hcontents => ?_⟩
  have hmem : [] ∈ (ofSource Config.standard (.text blankFieldPage) none).inputBindings := by
    rw [hbound]
    exact List.mem_singleton_self []
  exact (hcontents.inputBindings [] hmem).nonempty rfl

end Page
end Visualforce
