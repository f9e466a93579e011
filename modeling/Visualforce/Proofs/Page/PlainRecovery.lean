import Visualforce.Proofs.Markup.Visible
import Visualforce.Proofs.Page.Degradation
import Visualforce.Proofs.Page.PlainSettings

/-! # Recovering plain pages

What a recovery makes of a plain page, field by field, in terms of the heads of its elements and of
the expressions in its tokens.
-/
namespace Visualforce.Page
open Pattern Markup

variable {config : Config}

def beforePanels (config : Config) (text : Text) : Page :=
  let visible := visible config text
  readActionSupports (readBlocks (readBindings (readComponents config
    (readSettings (Page.empty .fallback) visible) visible) visible) visible) visible

/-- With the limit for previews set, no step of a recovery fails. -/
theorem recover_eq (h : config.previewLength.isSome) (text : Text) : ∃ panels,
    readPanels config (panelOpening.hits (visible config text)) (beforePanels config text) =
      ({ beforePanels config text with outputPanels := panels }, none) ∧
    recover config text =
      collect { beforePanels config text with outputPanels := panels } text documentContext := by
  obtain ⟨panels, error, hpanels⟩ :=
    readPanels_frame config (panelOpening.hits (visible config text)) (beforePanels config text)
  have hok := readPanels_ok h (panelOpening.hits (visible config text)) (beforePanels config text)
  rw [hpanels] at hok
  obtain rfl : error = none := hok
  refine ⟨panels, hpanels, ?_⟩
  have hstep : runStep config text (beforePanels config text) .outputPanels =
      { beforePanels config text with outputPanels := panels } := by
    rw [runStep, Step.run, hpanels]
  have hsteps : recover config text = runStep config text
      (runStep config text (beforePanels config text) .outputPanels) .expressions := rfl
  rw [hsteps, hstep]
  rfl

theorem panelOf_attributes {opening : Hit PanelPart} {panel : OutputPanel}
    (h : panelOf config opening = .ok panel) :
    panel.id = AttributeMap.get? (attributesIn (opening.group .attributes)) "id".toList ∧
    panel.layout = AttributeMap.get? (attributesIn (opening.group .attributes))
      "layout".toList := by
  simp only [panelOf] at h
  split at h
  · rw [bind_eq_ok] at h
    obtain ⟨preview, -, h⟩ := h
    obtain rfl := Except.ok.inj h
    exact ⟨rfl, rfl⟩
  · obtain rfl := Except.ok.inj h
    exact ⟨rfl, rfl⟩

theorem readPanels_adds (h : config.previewLength.isSome) (openings : List (Hit PanelPart))
    (page : Page) :
    (readPanels config openings page).1.outputPanels.map (fun panel => (panel.id, panel.layout)) =
      page.outputPanels.map (fun panel => (panel.id, panel.layout)) ++
        (openings.map fun opening => attributesIn (opening.group .attributes)).map fun attributes =>
          (AttributeMap.get? attributes "id".toList,
            AttributeMap.get? attributes "layout".toList) := by
  induction openings generalizing page with
  | nil => simp [readPanels]
  | cons opening rest ih =>
    obtain ⟨panel, hpanel⟩ := panelOf_ok h opening
    obtain ⟨hid, hlayout⟩ := panelOf_attributes hpanel
    rw [readPanels, hpanel]
    refine (ih _).trans ?_
    simp [hid, hlayout]

theorem tag_of_nameOf? {head : Head} (h : IsPlainTag head.tag) {name : Text × Text}
    (hname : nameOf? head = some name) : head.tag = name.1 ++ ':' :: name.2 := by
  generalize htag : head.tag = tag at h
  cases h with
  | simple h =>
    rw [nameOf?, usage?_of_simple (htag ▸ h)] at hname
    cases hname
  | qualified hqualifier _ h =>
    rw [nameOf?, usage?_of_qualified hqualifier h htag] at hname
    cases hname
    rfl

theorem map_attributeMap {α : Type} {heads : List Head} (view : AttributeMap → α) (shown : Head → α)
    (hheads : ∀ head ∈ heads, head.IsPlain)
    (hview : ∀ head : Head, (∀ name, head.attributeMap.get? name = head.get? name) →
      view head.attributeMap = shown head) (tag : Text) :
    ((heads.filter (·.tag = tag)).map (·.attributeMap)).map view =
      (heads.filter (·.tag = tag)).map shown := by
  rw [List.map_map]
  refine List.map_congr_left fun head hhead => hview head fun name => ?_
  exact Head.get?_attributeMap (hheads head (List.mem_filter.mp hhead).1).distinct name

section Plain
variable {head : Head} (closes : Bool) {rest : List Token} (hhead : head.IsPlain)
  (hroot : head.tag = pageRoot) (hrest : ∀ token ∈ rest, token.IsPlain ∧ token.IsInner)

include hrest in
theorem plain_below : ∀ inner ∈ headsOf rest, inner.IsPlain ∧ inner.IsInner :=
  forall_mem_headsOf fun _ _ hmem => hrest _ hmem

include hroot in
theorem filter_headsOf {tag : Text} (hne : pageRoot ≠ tag) :
    (headsOf (.opening head closes :: rest)).filter (·.tag = tag) =
      (headsOf rest).filter (·.tag = tag) := by
  rw [headsOf_opening, List.filter_cons_of_neg]
  simpa [hroot] using hne

include hhead hrest in
theorem plain_tokens : ∀ token ∈ Token.opening head closes :: rest, token.IsPlain :=
  List.forall_mem_cons.mpr ⟨hhead, fun token htoken => (hrest token htoken).1⟩

include hhead hrest in
theorem plain_heads : ∀ inner ∈ headsOf (.opening head closes :: rest), inner.IsPlain :=
  List.forall_mem_cons.mpr ⟨hhead, fun inner hinner => (plain_below hrest inner hinner).1⟩

include hhead hroot hrest

theorem findAll_below {α : Type} {text : String} {name : Text} (view : AttributeMap → α)
    (shown : Head → α) (htext : text.toList = '<' :: name) (hname : IsFixedTag name)
    (hne : pageRoot ≠ name)
    (hview : ∀ head : Head, (∀ name, head.attributeMap.get? name = head.get? name) →
      view head.attributeMap = shown head) :
    ((openTag text).findAll () (sourceOf (.opening head closes :: rest))).map
        (fun inside => view (attributesIn inside)) =
      ((headsOf rest).filter (·.tag = name)).map shown := by
  have hplain := plain_tokens closes hhead hrest
  have hfound := congrArg (List.map view) (findAll_openTag htext hname hplain)
  rw [map_attributeMap view shown (plain_heads closes hhead hrest) hview,
    filter_headsOf closes hroot hne, List.map_map] at hfound
  exact hfound

theorem panels_below :
    ((panelOpening.hits (sourceOf (.opening head closes :: rest))).map fun opening =>
        attributesIn (opening.group .attributes)).map (fun attributes =>
          (AttributeMap.get? attributes "id".toList,
            AttributeMap.get? attributes "layout".toList)) =
      ((headsOf rest).filter (·.tag = outputPanelTag)).map fun head =>
        (head.get? "id".toList, head.get? "layout".toList) := by
  have hplain := plain_tokens closes hhead hrest
  rw [hits_panelOpening hplain, map_attributeMap _ _ (plain_heads closes hhead hrest),
    filter_headsOf closes hroot (by decide)]
  intro head hget
  rw [hget, hget]

/-- The components that are found are those below the root, which is none itself. -/
theorem componentsIn_below :
    (componentsIn Config.standard (sourceOf (.opening head closes :: rest))).map
        (fun usage => (usage.space, usage.name)) =
      (headsOf rest).filterMap nameOf? := by
  have hplain := plain_tokens closes hhead hrest
  let keep : Text × Text → Bool :=
    fun name => !Config.standard.rootTags.contains (name.1 ++ ':' :: name.2)
  have hfound : (componentsIn Config.standard (sourceOf (.opening head closes :: rest))).map
      (fun usage => (usage.space, usage.name)) =
        ((headsOf (.opening head closes :: rest)).filterMap nameOf?).filter keep := by
    rw [← hits_componentName hplain, componentsIn, List.filter_map, List.map_map, List.filter_map]
    rfl
  have hinner : ((headsOf rest).filterMap nameOf?).filter keep =
    (headsOf rest).filterMap nameOf? := by
    apply List.filter_eq_self.mpr
    intro name hname
    obtain ⟨inner, hmem, hname⟩ := List.mem_filterMap.mp hname
    obtain ⟨hplain, hinner⟩ := plain_below hrest inner hmem
    simpa [keep, ← tag_of_nameOf? hplain.tag hname] using hinner.tag
  have hrootName : nameOf? head = some ("apex".toList, "page".toList) := by
    rw [nameOf?, usage?_of_qualified (by decide : isIdentifier "apex".toList)
      (by decide : isIdentifier "page".toList) (by rw [hroot]; decide)]
    rfl
  rw [hfound, headsOf_opening, List.filterMap_cons, hrootName, List.filter_cons_of_neg (by decide),
    hinner]

theorem readSettings_below (page : Page) (hextensions : page.extensions = []) :
    readSettings page (sourceOf (.opening head closes :: rest)) =
      { page with
        controller := present? (head.get? "standardController".toList)
        customController := present? (head.get? "controller".toList)
        extensions := extensionsOf ((head.get? "extensions".toList).getD [])
        apiVersion := present? (head.get? "apiVersion".toList)
        label := present? (head.get? "label".toList) } := by
  have hsearch := search_pageTag hhead hroot closes rest
  obtain ⟨hit, hhit, hattributes⟩ := Option.map_eq_some_iff.mp hsearch
  have hsetting : ∀ name : String, isIdentifier name.toList → name.toList ∈ controllerNames →
      setting? head.attributeMap name (sourceOf (.opening head closes :: rest)) =
        present? (head.get? name.toList) :=
    fun name hname hlisted => setting?_of_plain hname hlisted hhead hrest
  rw [readSettings, hhit]
  simp only [hattributes]
  rw [hsetting _ (by decide) (by decide), hsetting _ (by decide) (by decide),
    hsetting _ (by decide) (by decide), Head.get?_attributeMap hhead.distinct,
    Head.get?_attributeMap hhead.distinct, hextensions]
  rcases head.get? "extensions".toList with _ | _ | ⟨c, value⟩
  · rfl
  · rfl
  · rfl

/-- A recovery of a plain page knows its root, the heads below it and its expressions. -/
theorem recover_facts :
    (recover Config.standard (sourceOf (.opening head closes :: rest))).facts =
      factsOf Config.standard head (headsOf rest)
        (Expression.find (sourceOf (.opening head closes :: rest))) := by
  let source := sourceOf (.opening head closes :: rest)
  have hplain := plain_tokens closes hhead hrest
  have hclear : ∀ token ∈ Token.opening head closes :: rest, token.IsClear ∧ token.IsTransparent :=
    fun token htoken => ⟨(hplain token htoken).isClear, (hplain token htoken).isTransparent⟩
  obtain ⟨panels, hpanels, hrecover⟩ :=
    recover_eq (by decide : Config.standard.previewLength.isSome) source
  have hread : IsRead Config.standard (recover Config.standard source) :=
    runSteps_isRead source (empty_isRead Config.standard .fallback) Step.all
  have hcustom := hread.custom
  have hbefore : beforePanels Config.standard source = readActionSupports (readBlocks (readBindings
      (readComponents Config.standard (readSettings (Page.empty .fallback) source) source) source)
      source) source := by
    rw [beforePanels, visible_sourceOf hclear]
  rw [visible_sourceOf hclear] at hpanels
  have hcomponents := componentsIn_below closes hhead hroot hrest
  have hpanels' : panels.map (fun panel => (panel.id, panel.layout)) =
      ((headsOf rest).filter (·.tag = outputPanelTag)).map fun head =>
        (head.get? "id".toList, head.get? "layout".toList) := by
    have hadds := readPanels_adds (by decide : Config.standard.previewLength.isSome)
      (panelOpening.hits source) (beforePanels Config.standard source)
    rw [hpanels, panels_below closes hhead hroot hrest] at hadds
    exact hadds
  have hblocks := findAll_below closes hhead hroot hrest
    (fun attributes =>
      (AttributeMap.get? attributes "title".toList, AttributeMap.get? attributes "id".toList))
    (fun head => (head.get? "title".toList, head.get? "id".toList))
    (by decide : "<apex:pageBlock".toList = '<' :: blockTag) ⟨by decide, by decide, by decide⟩
    (by decide)
    (fun head hget => by rw [hget, hget])
  have hsupports := findAll_below closes hhead hroot hrest
    (fun attributes => (⟨AttributeMap.get? attributes "event".toList,
      AttributeMap.get? attributes "reRender".toList, AttributeMap.get? attributes "action".toList,
      AttributeMap.get? attributes "status".toList⟩ : ActionSupport)) supportOf
    (by decide : "<apex:actionSupport".toList = '<' :: actionSupportTag)
    ⟨by decide, by decide, by decide⟩ (by decide)
    (fun head hget => by rw [hget, hget, hget, hget, supportOf])
  have hexpressions := collect_expressions
    { beforePanels Config.standard source with outputPanels := panels } source documentContext
  have hreferences := collect_references
    { beforePanels Config.standard source with outputPanels := panels } source documentContext
  have hfound : (collect { beforePanels Config.standard source with outputPanels := panels } source
      documentContext).components = componentsIn Config.standard source := by
    rw [hbefore]
    exact List.nil_append _
  rw [hrecover] at hcustom ⊢
  have hsettings := readSettings_below closes hhead hroot hrest (Page.empty .fallback) rfl
  rw [hbefore, hsettings] at hcustom hexpressions hreferences hfound ⊢
  rw [facts, hexpressions, hreferences, hcustom, factsOf, Facts.mk.injEq]
  refine ⟨hcomponents, ?_, rfl, rfl, rfl, rfl, rfl, ?_, hsupports, hpanels', rfl, rfl⟩
  · rw [← hcomponents, List.filter_map, List.map_map, customNames, hfound]
    rfl
  · rw [← hblocks]
    exact List.map_map

end Plain

end Visualforce.Page
