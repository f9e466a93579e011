import Visualforce.Proofs.Markup.AttributeMap
import Visualforce.Proofs.Outcome
import Visualforce.Proofs.Page.LineEndPatterns

/-! # Recovery and line ends

What is recovered from a text with its line ends unified is what is recovered from the text, with
the line ends unified in whatever is quoted. Names of components and the collapsed previews of
panels hold none.
-/
namespace Visualforce.Page
open Pattern Markup Digest

variable {config : Config} {text : Text}

section Unified

def unifiedReference (reference : FieldReference) : FieldReference :=
  { reference with expression := unifyLineEnds reference.expression }

def unifiedBlock (block : PageBlock) : PageBlock :=
  { block with title := block.title.map unifyLineEnds, id := block.id.map unifyLineEnds }

def unifiedSupport (support : ActionSupport) : ActionSupport where
  event := support.event.map unifyLineEnds
  reRender := support.reRender.map unifyLineEnds
  action := support.action.map unifyLineEnds
  status := support.status.map unifyLineEnds

def unifiedPanel (panel : OutputPanel) : OutputPanel :=
  { panel with id := panel.id.map unifyLineEnds, layout := panel.layout.map unifyLineEnds }

/-- A page with the line ends unified in everything that a recovery quotes. -/
def unified (page : Page) : Page :=
  { page with
    controller := page.controller.map unifyLineEnds
    customController := page.customController.map unifyLineEnds
    extensions := page.extensions.map unifyLineEnds
    apiVersion := page.apiVersion.map unifyLineEnds
    label := page.label.map unifyLineEnds
    fieldReferences := page.fieldReferences.map unifiedReference
    blocks := page.blocks.map unifiedBlock
    actionSupports := page.actionSupports.map unifiedSupport
    outputPanels := page.outputPanels.map unifiedPanel
    expressions := page.expressions.map unifyLineEnds
    inputBindings := page.inputBindings.map unifyLineEnds
    buttonActions := page.buttonActions.map unifyLineEnds }

end Unified

theorem captures_attributePair :
    Captures (fun other found => other = .name → ∀ c ∈ found, isLineEnd c = false)
      attributePair := by
  have hname : PassesOnly (!isLineEnd ·)
      (plus (one fun c => Text.isWord c || c == ':' || c == '.' || c == '-') :
        Pattern AttributePart) :=
    (passesOnly_one_calm (by decide) (by decide)).plus
  refine ⟨⟨⟨⟨trivial, trivial⟩, fun _ _ hleads _ => ?_⟩, ⟨trivial, trivial⟩, trivial⟩,
    ⟨⟨trivial, trivial, fun _ _ _ hkey => nomatch hkey⟩, trivial⟩,
    ⟨trivial, trivial, fun _ _ _ hkey => nomatch hkey⟩, trivial⟩
  exact hname.calm hleads

theorem lookup_map_snd (pairs : List (Text × Text)) (change : Text → Text) (name : Text) :
    (pairs.map fun pair => (pair.1, change pair.2)).lookup name =
      (pairs.lookup name).map change := by
  induction pairs with
  | nil => rfl
  | cons pair pairs ih =>
    rw [List.map_cons, List.lookup_cons, List.lookup_cons, ih]
    cases name == pair.1 with
    | true => rfl
    | false => rfl

theorem get?_attributesIn_unifyLineEnds (inside name : Text) :
    (attributesIn (unifyLineEnds inside)).get? name =
      ((attributesIn inside).get? name).map unifyLineEnds := by
  have hall : ((attributePair.hits (unifyLineEnds inside)).map fun hit =>
      (hit.group .name, hit.group .value)) = ((attributePair.hits inside).map fun hit =>
        (hit.group .name, hit.group .value)).map
          fun pair : Text × Text => (unifyLineEnds pair.1, unifyLineEnds pair.2) :=
    map_hits_unifyLineEnds ignores_attributePair inside
      fun hhit => Prod.ext (hhit.group .name) (hhit.group .value)
  have hpairs : ((attributePair.hits (unifyLineEnds inside)).map fun hit =>
      (hit.group .name, hit.group .value)) = ((attributePair.hits inside).map fun hit =>
        (hit.group .name, hit.group .value)).map
          fun pair : Text × Text => (pair.1, unifyLineEnds pair.2) := by
    rw [hall]
    refine List.map_congr_left fun pair hpair => Prod.ext ?_ rfl
    obtain ⟨hit, hhit, rfl⟩ := List.mem_map.mp hpair
    exact unifyLineEnds_group captures_attributePair hhit
  rw [attributesIn, attributesIn, AttributeMap.get?_ofPairs, AttributeMap.get?_ofPairs, hpairs,
    ← List.map_reverse, lookup_map_snd]

theorem present?_unifyLineEnds (value : Option Text) :
    present? (value.map unifyLineEnds) = (present? value).map unifyLineEnds := by
  cases value with
  | none => rfl
  | some value => exact nonEmpty?_unifyLineEnds value

theorem map_trim_unifyLineEnds (values : List Text) :
    (values.map unifyLineEnds).map Text.trim = (values.map Text.trim).map unifyLineEnds := by
  rw [List.map_map, List.map_map]
  exact List.map_congr_left fun value _ => trim_unifyLineEnds value

theorem extensionsOf_unifyLineEnds (value : Text) :
    extensionsOf (unifyLineEnds value) = (extensionsOf value).map unifyLineEnds := by
  rw [extensionsOf, extensionsOf, splitWhere_unifyLineEnds (by decide) (by decide),
    filled_unifyLineEnds]

section Settings

theorem setting?_unifyLineEnds {attributes others : AttributeMap} {name : String}
    (hname : IsCalm name)
    (h : others.get? name.toList = (attributes.get? name.toList).map unifyLineEnds)
    (text : Text) : setting? others name (unifyLineEnds text) =
      (setting? attributes name text).map unifyLineEnds := by
  have hassigned : ((assignment name).search (unifyLineEnds text)).map (·.group ()) =
      (((assignment name).search text).map (·.group ())).map unifyLineEnds := by
    obtain ⟨hnone, hnone'⟩ | ⟨hit, hit', hsome, hsome', hhit⟩ :=
      rel_cases (search_unifyLineEnds (ignores_assignment hname) text)
    · rw [hnone, hnone']
      rfl
    · rw [hsome, hsome', Option.map_some, Option.map_some, hhit.group]
      rfl
  rw [setting?, setting?, h, hassigned, present?_unifyLineEnds, present?_unifyLineEnds]
  cases present? (attributes.get? name.toList) with
  | none => rfl
  | some value => rfl

/-- A page with the settings that the attributes of a page tag and a text give it. -/
def withSettings (attributes : AttributeMap) (text : Text) (page : Page) : Page :=
  { page with
    controller := setting? attributes "standardController" text
    customController := setting? attributes "controller" text
    extensions := ((setting? attributes "extensions" text).map extensionsOf).getD page.extensions
    apiVersion := present? (attributes.get? "apiVersion".toList)
    label := present? (attributes.get? "label".toList) }

theorem withSettings_unified {attributes others : AttributeMap}
    (h : ∀ name, others.get? name = (attributes.get? name).map unifyLineEnds) (text : Text)
    (page : Page) : withSettings others (unifyLineEnds text) page.unified =
      (withSettings attributes text page).unified := by
  have hextensions : ((setting? others "extensions" (unifyLineEnds text)).map extensionsOf).getD
      page.unified.extensions = (((setting? attributes "extensions" text).map extensionsOf).getD
        page.extensions).map unifyLineEnds := by
    rw [setting?_unifyLineEnds (by decide) (h _)]
    cases setting? attributes "extensions" text with
    | none => rfl
    | some value => exact extensionsOf_unifyLineEnds value
  rw [withSettings, hextensions, setting?_unifyLineEnds (by decide) (h _),
    setting?_unifyLineEnds (by decide) (h _), h, h, present?_unifyLineEnds, present?_unifyLineEnds]
  rfl

theorem readSettings_eq (page : Page) (visible : Text) : readSettings page visible =
    withSettings ((pageTag.search visible).elim [] fun hit => attributesIn (hit.group ())) visible
      page := by
  rw [readSettings, withSettings]
  cases pageTag.search visible with
  | none =>
    dsimp only [Option.elim_none]
    cases setting? [] "extensions" visible <;> rfl
  | some hit =>
    dsimp only [Option.elim_some]
    cases setting? (attributesIn (hit.group ())) "extensions" visible <;> rfl

theorem readSettings_unified (page : Page) (visible : Text) :
    readSettings page.unified (unifyLineEnds visible) = (readSettings page visible).unified := by
  rw [readSettings_eq, readSettings_eq]
  refine withSettings_unified (fun name => ?_) visible page
  obtain ⟨hnone, hnone'⟩ | ⟨hit, hit', hsome, hsome', hhit⟩ :=
    rel_cases (search_unifyLineEnds ignores_pageTag visible)
  · rw [hnone, hnone']
    rfl
  · rw [hsome, hsome', Option.elim_some, Option.elim_some, hhit.group,
      get?_attributesIn_unifyLineEnds]

end Settings

section Components

theorem captures_componentName (part : NamePart) :
    Captures (fun other found => other = part → ∀ c ∈ found, isLineEnd c = false)
      componentName := by
  have hword : PassesOnly (!isLineEnd ·) (componentWord : Pattern NamePart) :=
    (passesOnly_one_calm (by decide) (by decide)).append
      (passesOnly_one_calm (by decide) (by decide)).star
  exact ⟨⟨⟨trivial, ⟨trivial, trivial⟩, fun _ _ hleads _ =>
    hword.calm hleads⟩, trivial⟩, ⟨trivial, trivial⟩, fun _ _ hleads _ =>
      hword.calm hleads⟩

theorem componentsIn_unifyLineEnds (config : Config) (visible : Text) :
    componentsIn config (unifyLineEnds visible) = componentsIn config visible := by
  have hall : ((componentName.hits (unifyLineEnds visible)).map fun hit =>
      (⟨hit.group .space, hit.group .name, []⟩ : ComponentUsage)) =
        ((componentName.hits visible).map fun hit => ⟨hit.group .space, hit.group .name, []⟩).map
          fun usage : ComponentUsage => ⟨unifyLineEnds usage.space, unifyLineEnds usage.name, []⟩ :=
    map_hits_unifyLineEnds ignores_componentName visible fun hhit => by
      rw [hhit.group, hhit.group]
  have husages : ((componentName.hits (unifyLineEnds visible)).map fun hit =>
      (⟨hit.group .space, hit.group .name, []⟩ : ComponentUsage)) =
        (componentName.hits visible).map fun hit => ⟨hit.group .space, hit.group .name, []⟩ := by
    rw [hall, List.map_map]
    refine List.map_congr_left fun hit hhit => ?_
    rw [Function.comp_apply, unifyLineEnds_group (captures_componentName .space) hhit,
      unifyLineEnds_group (captures_componentName .name) hhit]
  rw [componentsIn, componentsIn, husages]

theorem readComponents_unified (config : Config) (page : Page) (visible : Text) :
    readComponents config page.unified (unifyLineEnds visible) =
      (readComponents config page visible).unified := by
  rw [readComponents, readComponents, componentsIn_unifyLineEnds]
  rfl

end Components

section Bindings

theorem readBindings_unified (page : Page) (visible : Text) :
    readBindings page.unified (unifyLineEnds visible) = (readBindings page visible).unified := by
  rw [readBindings, readBindings, findAll_unifyLineEnds ignores_inputBinding,
    findAll_unifyLineEnds ignores_buttonAction, map_trim_unifyLineEnds, map_trim_unifyLineEnds,
    unified, unified, List.map_append, List.map_append]

end Bindings

section Tags

theorem ignores_blockTag : IgnoresLineEnds (openTag "<apex:pageBlock") :=
  ignores_openTag (by decide) (blocks_exactly (by decide))

theorem readBlocks_unified (page : Page) (visible : Text) :
    readBlocks page.unified (unifyLineEnds visible) = (readBlocks page visible).unified := by
  rw [readBlocks, readBlocks, findAll_unifyLineEnds ignores_blockTag, List.map_map]
  simp only [Function.comp_def, get?_attributesIn_unifyLineEnds, unified, List.map_append,
    List.map_map, unifiedBlock]

theorem ignores_supportTag : IgnoresLineEnds (openTag "<apex:actionSupport") :=
  ignores_openTag (by decide) (blocks_exactly (by decide))

theorem readActionSupports_unified (page : Page) (visible : Text) :
    readActionSupports page.unified (unifyLineEnds visible) =
      (readActionSupports page visible).unified := by
  rw [readActionSupports, readActionSupports, findAll_unifyLineEnds ignores_supportTag,
    List.map_map]
  simp only [Function.comp_def, get?_attributesIn_unifyLineEnds, unified, List.map_append,
    List.map_map, unifiedSupport]

end Tags

section Panels

theorem panelBody_unified {visible : Text} {opening opening' : Hit PanelPart}
    (h : UnifiedHit visible opening opening') : panelBody opening' = panelBody opening := by
  rw [panelBody, panelBody, h.group, isEmpty_unifyLineEnds]
  split_ifs
  · rfl
  · obtain ⟨hnone, hnone'⟩ | ⟨closing, closing', hsome, hsome', hclosing⟩ :=
      rel_cases (ignores_panelClosing.rel_searchFrom h.stop)
    · rw [hnone, hnone']
    · rw [hsome, hsome']
      dsimp only
      rw [h.stop.spanTo_text hclosing.start, collapse_unifyLineEnds]

theorem panelOf_unified {visible : Text} {opening opening' : Hit PanelPart}
    (h : UnifiedHit visible opening opening') :
    panelOf config opening' = (panelOf config opening).map unifiedPanel := by
  rw [panelOf, panelOf, panelBody_unified h, h.group, get?_attributesIn_unifyLineEnds,
    get?_attributesIn_unifyLineEnds]
  cases nonEmpty? (panelBody opening) with
  | none => rfl
  | some body =>
    dsimp only
    cases Text.truncate? config.previewLength body with
    | error error => rfl
    | ok preview => rfl

theorem readPanels_unified (config : Config) {visible : Text}
    {openings openings' : List (Hit PanelPart)}
    (h : List.Forall₂ (UnifiedHit visible) openings openings') (page : Page) :
    readPanels config openings' page.unified =
      ((readPanels config openings page).1.unified, (readPanels config openings page).2) := by
  induction h generalizing page with
  | nil => rfl
  | cons hopening _ ih =>
    rw [readPanels, readPanels, panelOf_unified hopening]
    cases panelOf config _ with
    | error error => rfl
    | ok panel =>
      have hpage : { page.unified with
          outputPanels := page.unified.outputPanels ++ [unifiedPanel panel] } =
            { page with outputPanels := page.outputPanels ++ [panel] }.unified := by
        simp only [unified, List.map_append, List.map_singleton]
      dsimp only [Except.map]
      rw [hpage, ih]

end Panels

section Expressions

theorem scan_unifyLineEnds (text : Text) :
    Expression.scan (unifyLineEnds text) = (Expression.scan text).map fun item =>
      { item with content := unifyLineEnds item.content } := by
  rw [Expression.scan, Expression.scan, Expression.find_unifyLineEnds, List.map_map, List.map_map]
  refine List.map_congr_left fun content _ => ?_
  rw [Function.comp_apply, Function.comp_apply, Expression.classify_unifyLineEnds]

theorem collect_unified (page : Page) (text context : Text) :
    collect page.unified (unifyLineEnds text) context = (collect page text context).unified := by
  rw [collect, collect, Expression.Collection.scan, Expression.Collection.scan, scan_unifyLineEnds]
  simp only [Expression.Collection.add, unified, List.map_append, List.filter_map, List.map_map]
  rfl

end Expressions

section Steps

/-- A step reads alike from both texts. -/
theorem runStep_unified (htags : CalmTags config.opaqueTags)
    (hcomments : ¬PartsLineEnd (commentPattern.pieces text)) (page : Page) (step : Step) :
    runStep config (unifyLineEnds text) page.unified step =
      (runStep config text page step).unified := by
  have hvisible := visible_unifyLineEnds htags hcomments
  cases step with
  | settings => exact (congrArg _ hvisible).trans (readSettings_unified page _)
  | components => exact (congrArg _ hvisible).trans (readComponents_unified config page _)
  | bindings => exact (congrArg _ hvisible).trans (readBindings_unified page _)
  | blocks => exact (congrArg _ hvisible).trans (readBlocks_unified page _)
  | actionSupports => exact (congrArg _ hvisible).trans (readActionSupports_unified page _)
  | expressions => exact collect_unified page text documentContext
  | outputPanels =>
    have hpanels := readPanels_unified config
      (hits_unifyLineEnds ignores_panelOpening (visible config text)) page
    rw [runStep, runStep, Step.run, Step.run, hvisible, hpanels]
    obtain ⟨after, error⟩ := readPanels config (panelOpening.hits (visible config text)) page
    cases error with
    | none => rfl
    | some error => rfl

theorem runSteps_unified (htags : CalmTags config.opaqueTags)
    (hcomments : ¬PartsLineEnd (commentPattern.pieces text)) (steps : List Step) (page : Page) :
    runSteps config (unifyLineEnds text) steps page.unified =
      (runSteps config text steps page).unified := by
  induction steps generalizing page with
  | nil => rfl
  | cons step steps ih =>
    rw [runSteps, List.foldl_cons, runStep_unified htags hcomments]
    exact ih (runStep config text page step)

theorem recover_unifyLineEnds (htags : CalmTags config.opaqueTags)
    (hcomments : ¬PartsLineEnd (commentPattern.pieces text)) :
    recover config (unifyLineEnds text) = (recover config text).unified :=
  runSteps_unified htags hcomments Step.all (Page.empty .fallback)

end Steps

end Visualforce.Page
