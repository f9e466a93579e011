import Visualforce.Proofs.Page.Mentions
import Visualforce.Proofs.Page.Representation

/-! # Facts of a page

The facts of a page are what its root and the heads and expressions below it settle by themselves. A
page read from a tree has the facts of the tree: its heads and its expressions in document order.
-/
namespace Visualforce.Page
open Markup

variable {config : Config}

/-- The part of a page that does not depend on how its elements are nested. Previews, contexts and
the components of a block do. Bindings are left out for another reason: a recovery misses one behind
a closing bracket inside a value. -/
structure Facts where
  components : List (Text × Text)
  customComponents : List Text
  controller : Option Text
  customController : Option Text
  extensions : List Text
  apiVersion : Option Text
  label : Option Text
  blocks : List (Option Text × Option Text)
  actionSupports : List ActionSupport
  outputPanels : List (Option Text × Option Text)
  expressions : List Text
  references : List Text
deriving DecidableEq

def facts (page : Page) : Facts where
  components := page.components.map fun usage => (usage.space, usage.name)
  customComponents := page.customComponents
  controller := page.controller
  customController := page.customController
  extensions := page.extensions
  apiVersion := page.apiVersion
  label := page.label
  blocks := page.blocks.map fun block => (block.title, block.id)
  actionSupports := page.actionSupports
  outputPanels := page.outputPanels.map fun panel => (panel.id, panel.layout)
  expressions := page.expressions
  references := page.fieldReferences.map (·.expression)

/-- The namespace and the name of a namespaced head. -/
def nameOf? (head : Head) : Option (Text × Text) :=
  (usage? head).map fun usage => (usage.space, usage.name)

def isSimple (content : Text) : Bool := Expression.classify content == .simpleReference

/-- The facts of a page with the given root, heads below it and expressions. -/
def factsOf (config : Config) (root : Head) (inner : List Head) (found : List Text) : Facts where
  components := inner.filterMap nameOf?
  customComponents :=
    ((inner.filterMap nameOf?).filter (config.customNamespaces.contains ·.1)).map (·.2)
  controller := present? (root.get? "standardController".toList)
  customController := present? (root.get? "controller".toList)
  extensions := extensionsOf ((root.get? "extensions".toList).getD [])
  apiVersion := present? (root.get? "apiVersion".toList)
  label := present? (root.get? "label".toList)
  blocks := (inner.filter (·.tag = blockTag)).map fun head =>
    (head.get? "title".toList, head.get? "id".toList)
  actionSupports := (inner.filter (·.tag = actionSupportTag)).map supportOf
  outputPanels := (inner.filter (·.tag = outputPanelTag)).map fun head =>
    (head.get? "id".toList, head.get? "layout".toList)
  expressions := found.filter (!isSimple ·)
  references := found.filter isSimple

theorem collect_expressions (page : Page) (text context : Text) :
    (collect page text context).expressions =
      page.expressions ++ (Expression.find text).filter (!isSimple ·) := by
  simp only [collect, Expression.Collection.scan, Expression.Collection.add, Expression.scan,
    List.filter_map, List.map_map]
  exact congrArg _ (List.map_id _)

theorem collect_references (page : Page) (text context : Text) :
    (collect page text context).fieldReferences.map (·.expression) =
      page.fieldReferences.map (·.expression) ++ (Expression.find text).filter isSimple := by
  simp only [collect, Expression.Collection.scan, Expression.Collection.add, Expression.scan,
    List.filter_map, List.map_map, List.map_append]
  exact congrArg _ (List.map_id _)

def foundInHead (head : Head) : List Text := head.attributes.flatMap (Expression.find ·.value)

/-- The expressions below some tags, in document order. -/
def foundInNodes (path : List Text) (nodes : List Node) : List Text :=
  traceNodes (fun _ content => Expression.find content) (fun head _ => foundInHead head) path nodes

def foundIn (root : Element) : List Text :=
  foundInHead root.head ++ foundInNodes [root.head.tag] root.children

/-- The supports and panels that one head adds. -/
def supportsAt (head : Head) : List ActionSupport :=
  if head.tag = actionSupportTag then [supportOf head] else []

def panelsAt (head : Head) : List (Option Text × Option Text) :=
  if head.tag = outputPanelTag then [(head.get? "id".toList, head.get? "layout".toList)] else []

theorem visitHead_lists {head : Head} {children : List Node} {walk walk' : Walk}
    (h : visitHead config head children walk = .ok walk') :
    walk'.page.actionSupports = walk.page.actionSupports ++ supportsAt head ∧
    walk'.page.outputPanels.map (fun panel => (panel.id, panel.layout)) =
      walk.page.outputPanels.map (fun panel => (panel.id, panel.layout)) ++ panelsAt head := by
  rw [visitHead_eq, map_eq_ok] at h
  obtain ⟨page, htag, rfl⟩ := h
  obtain ⟨es, rs, bs, cs, hattrs⟩ := visitAttributes_frame head walk.page
  have hsupports : (addUsage config head (visitAttributes head walk.page)).actionSupports =
      walk.page.actionSupports := by
    rw [hattrs, addUsage]
    cases usage? head <;> rfl
  have hpanels : (addUsage config head (visitAttributes head walk.page)).outputPanels =
      walk.page.outputPanels := by
    rw [hattrs, addUsage]
    cases usage? head <;> rfl
  rw [supportsAt, panelsAt, ← hsupports, ← hpanels]
  rcases visitTag_cases htag with ⟨heq, rfl⟩ | ⟨heq, rfl⟩ | ⟨heq, found, -, rfl⟩
    | ⟨-, hne, hne', rfl⟩
  · rw [if_neg (by rw [heq]; decide), if_neg (by rw [heq]; decide), List.append_nil,
      List.append_nil]
    exact ⟨rfl, rfl⟩
  · rw [if_pos heq, if_neg (by rw [heq]; decide), List.append_nil]
    exact ⟨rfl, rfl⟩
  · rw [if_neg (by rw [heq]; decide), if_pos heq, List.append_nil]
    exact ⟨rfl, List.map_append⟩
  · rw [if_neg hne, if_neg hne', List.append_nil, List.append_nil]
    exact ⟨rfl, rfl⟩

theorem flatMap_if_map {α : Type} (heads : List Head) (tag : Text) (view : Head → α) :
    heads.flatMap (fun head => if head.tag = tag then [view head] else []) =
      (heads.filter (·.tag = tag)).map view := by
  induction heads with
  | nil => rfl
  | cons head heads ih =>
    rw [List.flatMap_cons, List.filter_cons, ih]
    simp only [decide_eq_true_eq]
    split_ifs <;> rfl

/-- A walk below some tags adds the supports and panels of the heads it meets. -/
theorem visitAll_lists {path : List Text} {nodes : List Node} {walk walk' : Walk}
    (h : visitAll config path nodes walk = .ok walk') :
    walk'.page.actionSupports = walk.page.actionSupports ++
      (occurrencesIn [] 0 nodes).flatMap (supportsAt ·.head) ∧
    walk'.page.outputPanels.map (fun panel => (panel.id, panel.layout)) =
      walk.page.outputPanels.map (fun panel => (panel.id, panel.layout)) ++
        (occurrencesIn [] 0 nodes).flatMap (panelsAt ·.head) := by
  have hsupports : walk'.page.actionSupports = walk.page.actionSupports ++
      traceNodes (fun _ _ => []) (fun head _ => supportsAt head) path nodes :=
    visitAll_adds (·.actionSupports) (fun _ _ _ => by simp [collect])
      (fun _ _ _ _ hhead => (visitHead_lists hhead).1) path nodes walk walk' h
  have hpanels : walk'.page.outputPanels.map (fun panel => (panel.id, panel.layout)) =
      walk.page.outputPanels.map (fun panel => (panel.id, panel.layout)) ++
        traceNodes (fun _ _ => []) (fun head _ => panelsAt head) path nodes :=
    visitAll_adds (fun page => page.outputPanels.map fun panel => (panel.id, panel.layout))
      (fun _ _ _ => by simp [collect])
      (fun _ _ _ _ hhead => (visitHead_lists hhead).2) path nodes walk walk' h
  rw [hsupports, hpanels, traceNodes_heads supportsAt path [] 0,
    traceNodes_heads panelsAt path [] 0]
  exact ⟨rfl, rfl⟩

theorem mentions_contents (root : Element) : (mentions root).map (·.content) = foundIn root := by
  have hcontents : ∀ text site, (mentionsIn text site).map (·.content) = Expression.find text := by
    simp [mentionsIn, Function.comp_def]
  have hhead : ∀ head, (mentionsInHead head).map (·.content) = foundInHead head := by
    simp [mentionsInHead, foundInHead, List.map_flatMap, hcontents]
  rw [mentions, List.map_append, hhead, mentionsInNodes, foundIn, foundInNodes]
  rw [← traceNodes_image List.map_nil (fun _ _ => List.map_append)]
  simp only [hcontents, hhead]

/-- What is collected of the mentions of a tree is what their contents show. -/
theorem complexOf_mentions (root : Element) :
    complexOf (mentions root) = (foundIn root).filter (!isSimple ·) := by
  rw [← mentions_contents, List.filter_map]
  rfl

theorem referencesOf_mentions (root : Element) :
    (referencesOf (mentions root)).map (·.expression) = (foundIn root).filter isSimple := by
  rw [← mentions_contents, List.filter_map, referencesOf, List.map_map]
  rfl

theorem ofTree_facts {root : Element} {page : Page} (h : ofTree config root = .ok page) :
    page.facts = factsOf config root.head (root.below.map (·.head)) (foundIn root) := by
  have hcomponents : page.components.map (fun usage => (usage.space, usage.name)) =
      (root.below.map (·.head)).filterMap nameOf? := by
    rw [ofTree_components h, usagesOf, List.map_filterMap, List.filterMap_map]
    rfl
  have hcustom : page.customComponents =
      (((root.below.map (·.head)).filterMap nameOf?).filter
        (config.customNamespaces.contains ·.1)).map (·.2) := by
    rw [(ofTree_isRead h).custom, ← hcomponents, customNames, List.filter_map, List.map_map]
    rfl
  have hblocks : page.blocks.map (fun block => (block.title, block.id)) =
      ((root.below.map (·.head)).filter (·.tag = blockTag)).map fun head =>
        (head.get? "title".toList, head.get? "id".toList) := by
    rw [ofTree_blocks h, groupsIn_blocks, attributedBlocks, List.map_map, List.filter_map,
      List.map_map]
    rfl
  have houtline := ofTree_outline h
  obtain ⟨walk, hwalk, hpage⟩ := ofTree_eq_ok h
  obtain ⟨hsupports, hpanels⟩ := visitAll_lists hwalk
  obtain ⟨es, rs, bs, cs, hattrs⟩ := visitAttributes_frame root.head (ofRoot root.head)
  have hstartSupports : (visitAttributes root.head (ofRoot root.head)).actionSupports = [] := by
    rw [hattrs]
    rfl
  have hstartPanels : (visitAttributes root.head (ofRoot root.head)).outputPanels = [] := by
    rw [hattrs]
    rfl
  simp only [hstartSupports, hstartPanels, List.map_nil, List.nil_append] at hsupports hpanels
  have hsupports' : page.actionSupports =
      ((root.below.map (·.head)).filter (·.tag = actionSupportTag)).map supportOf := by
    rw [← flatMap_if_map, List.flatMap_map, hpage]
    exact hsupports
  have hpanels' : page.outputPanels.map (fun panel => (panel.id, panel.layout)) =
      ((root.below.map (·.head)).filter (·.tag = outputPanelTag)).map fun head =>
        (head.get? "id".toList, head.get? "layout".toList) := by
    rw [← flatMap_if_map, List.flatMap_map, hpage]
    exact hpanels
  have hexpressions' : page.expressions = (foundIn root).filter (!isSimple ·) :=
    (ofTree_expressions h).trans (complexOf_mentions root)
  have hreferences' : page.fieldReferences.map (·.expression) = (foundIn root).filter isSimple := by
    rw [ofTree_references h, referencesOf_mentions]
  rw [facts, factsOf, hcomponents, hcustom, hblocks, hsupports', hpanels', hexpressions',
    hreferences']
  have hcontroller : page.controller = _ := congrArg (·.controller) houtline
  have hcustomController : page.customController = _ := congrArg (·.customController) houtline
  have hextensions : page.extensions = _ := congrArg (·.extensions) houtline
  have hversion : page.apiVersion = _ := congrArg (·.apiVersion) houtline
  have hlabel : page.label = _ := congrArg (·.label) houtline
  rw [hcontroller, hcustomController, hextensions, hversion, hlabel]
  rfl

end Visualforce.Page
