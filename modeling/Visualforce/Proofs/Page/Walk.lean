import Mathlib.Tactic.SplitIfs
import Visualforce.Page.Traversal
import Visualforce.Proofs.Outcome

/-! # What a walk adds to a page

Every visit only adds to the lists of a page. So a list that grows by a fixed amount at each text
and at each head grows, over a whole tree, by these amounts in document order. A walk fails only
where the preview of a panel needs an unset limit.
-/
namespace Visualforce.Page
open Markup

variable {config : Config}

def addUsage (config : Config) (head : Head) (page : Page) : Page :=
  match usage? head with
  | some usage => (visitUsage config usage ⟨page, .empty⟩).page
  | none => page

/-- The usage of a head, noted in the innermost open block. -/
def recordUsage (head : Head) (blocks : BlockStack) : BlockStack :=
  match usage? head with
  | some usage => blocks.record usage
  | none => blocks

theorem visitHead_eq (head : Head) (children : List Node) (walk : Walk) :
    visitHead config head children walk =
      (visitTag config head children (addUsage config head (visitAttributes head walk.page))).map
        fun page => ⟨page, recordUsage head walk.blocks⟩ := by
  simp only [visitHead, addUsage, recordUsage]
  cases usage? head with
  | none => cases visitTag config head children (visitAttributes head walk.page) <;> rfl
  | some usage =>
    simp only [visitUsage]
    generalize visitTag config head children _ = result
    cases result <;> rfl

/-- The panel that a head with an output tag adds, once its preview is known. -/
def panelWith (head : Head) (preview : Option Text) : OutputPanel :=
  ⟨head.get? "id".toList, head.get? "layout".toList, preview⟩

/-- Everything that visiting a tag can do. The three tags differ, so at most one list grows. -/
theorem visitTag_cases {head : Head} {children : List Node} {page page' : Page}
    (h : visitTag config head children page = .ok page') :
    (head.tag = formTag ∧ page' = { page with formCount := page.formCount + 1 }) ∨
    (head.tag = actionSupportTag ∧
      page' = { page with actionSupports := page.actionSupports ++ [supportOf head] }) ∨
    (head.tag = outputPanelTag ∧ ∃ found, preview config children = .ok found ∧
      page' = { page with outputPanels := page.outputPanels ++ [panelWith head found] }) ∨
    (head.tag ≠ formTag ∧ head.tag ≠ actionSupportTag ∧ head.tag ≠ outputPanelTag ∧
      page' = page) := by
  simp only [visitTag, beq_iff_eq] at h
  split_ifs at h with hform hsupport hpanel
  · exact .inl ⟨hform, (Except.ok.inj h).symm⟩
  · exact .inr (.inl ⟨hsupport, (Except.ok.inj h).symm⟩)
  · cases hp : preview config children with
    | error error => rw [hp] at h; cases h
    | ok found =>
      rw [hp] at h
      exact .inr (.inr (.inl ⟨hpanel, found, rfl, (Except.ok.inj h).symm⟩))
  · exact .inr (.inr (.inr ⟨hform, hsupport, hpanel, (Except.ok.inj h).symm⟩))

def Walk.enter (walk : Walk) (block : PageBlock) : Walk :=
  { walk with blocks := walk.blocks.enter block }

def Walk.leave (walk : Walk) : Walk := { walk with blocks := walk.blocks.exit }

theorem visit_block {head : Head} (hblock : head.tag = blockTag) (path : List Text)
    (children : List Node) (walk : Walk) :
    visit config path (.element head children) walk =
      visitHead config head children walk >>= fun entered =>
        (visitAll config (path ++ [head.tag]) children (entered.enter (blockOf head))).map
          Walk.leave := by
  rw [visit]
  refine congrArg _ (funext fun entered => ?_)
  simp only [hblock, beq_self_eq_true, ↓reduceIte]
  change visitAll config (path ++ [blockTag]) children (entered.enter (blockOf head)) >>= _ = _
  cases visitAll config (path ++ [blockTag]) children (entered.enter (blockOf head)) <;> rfl

theorem visit_of_ne {head : Head} (hblock : head.tag ≠ blockTag) (path : List Text)
    (children : List Node) (walk : Walk) :
    visit config path (.element head children) walk =
      visitHead config head children walk >>= visitAll config (path ++ [head.tag]) children := by
  rw [visit]
  refine congrArg _ (funext fun entered => ?_)
  rw [if_neg (by simpa using hblock)]

theorem visit_element_cases {path : List Text} {head : Head} {children : List Node}
    {walk walk' : Walk} (h : visit config path (.element head children) walk = .ok walk') :
    ∃ entered, visitHead config head children walk = .ok entered ∧
      ((head.tag = blockTag ∧ ∃ left, visitAll config (path ++ [head.tag]) children
          (entered.enter (blockOf head)) = .ok left ∧ walk' = left.leave) ∨
        (head.tag ≠ blockTag ∧
          visitAll config (path ++ [head.tag]) children entered = .ok walk')) := by
  by_cases hblock : head.tag = blockTag
  · rw [visit_block hblock, bind_eq_ok] at h
    obtain ⟨entered, hhead, h⟩ := h
    obtain ⟨left, hleft, rfl⟩ := map_eq_ok.mp h
    exact ⟨entered, hhead, .inl ⟨hblock, left, hleft, rfl⟩⟩
  · rw [visit_of_ne hblock, bind_eq_ok] at h
    obtain ⟨entered, hhead, h⟩ := h
    exact ⟨entered, hhead, .inr ⟨hblock, h⟩⟩

variable {α : Type}

mutual
/-- What the texts and heads of a node yield in document order. A text yields by the tags above it,
a head by its children. -/
def traceNode (ofText : List Text → Text → List α) (ofHead : Head → List Node → List α)
    (path : List Text) : Node → List α
  | .text content => ofText path content
  | .element head children =>
    ofHead head children ++ traceNodes ofText ofHead (path ++ [head.tag]) children

def traceNodes (ofText : List Text → Text → List α) (ofHead : Head → List Node → List α)
    (path : List Text) : List Node → List α
  | [] => []
  | node :: rest => traceNode ofText ofHead path node ++ traceNodes ofText ofHead path rest
end

mutual
theorem traceNode_image {β : Type} {image : List α → List β} (hnil : image [] = [])
    (happend : ∀ few others, image (few ++ others) = image few ++ image others)
    (ofText : List Text → Text → List α) (ofHead : Head → List Node → List α) (path : List Text) :
    ∀ node : Node, traceNode (fun path content => image (ofText path content))
      (fun head children => image (ofHead head children)) path node =
        image (traceNode ofText ofHead path node)
  | .text content => by simp only [traceNode]
  | .element head children => by
    simp only [traceNode, happend]
    rw [traceNodes_image hnil happend ofText ofHead (path ++ [head.tag]) children]

/-- What is done to a list piece by piece can be done to every part of a trace. -/
theorem traceNodes_image {β : Type} {image : List α → List β} (hnil : image [] = [])
    (happend : ∀ few others, image (few ++ others) = image few ++ image others)
    (ofText : List Text → Text → List α) (ofHead : Head → List Node → List α) (path : List Text) :
    ∀ nodes : List Node, traceNodes (fun path content => image (ofText path content))
      (fun head children => image (ofHead head children)) path nodes =
        image (traceNodes ofText ofHead path nodes)
  | [] => by simp only [traceNodes, hnil]
  | node :: rest => by
    simp only [traceNodes, happend]
    rw [traceNode_image hnil happend ofText ofHead path node,
      traceNodes_image hnil happend ofText ofHead path rest]
end

section Growth
variable (field : Page → List α) {ofText : List Text → Text → List α}
  {ofHead : Head → List Node → List α}

mutual
theorem visit_adds
    (hText : ∀ path content page,
      field (collect page content (Text.joinWith ['.'] path)) = field page ++ ofText path content)
    (hHead : ∀ head children walk walk', visitHead config head children walk = .ok walk' →
      field walk'.page = field walk.page ++ ofHead head children)
    (path : List Text) : ∀ (node : Node) (walk walk' : Walk),
    visit config path node walk = .ok walk' →
      field walk'.page = field walk.page ++ traceNode ofText ofHead path node
  | .text content, walk, walk', h => by
    simp only [visit, Except.ok.injEq] at h
    subst h
    exact hText path content walk.page
  | .element head children, walk, walk', h => by
    obtain ⟨entered, hhead, h⟩ := visit_element_cases h
    have hentered := hHead head children walk entered hhead
    rw [traceNode, ← List.append_assoc, ← hentered]
    rcases h with ⟨-, left, hall, rfl⟩ | ⟨-, hall⟩
    · have hinner := visitAll_adds hText hHead (path ++ [head.tag]) children
        (entered.enter (blockOf head)) left hall
      exact hinner
    · exact visitAll_adds hText hHead (path ++ [head.tag]) children entered walk' hall

/-- A list that grows at each text and each head grows over a forest by its trace. -/
theorem visitAll_adds
    (hText : ∀ path content page,
      field (collect page content (Text.joinWith ['.'] path)) = field page ++ ofText path content)
    (hHead : ∀ head children walk walk', visitHead config head children walk = .ok walk' →
      field walk'.page = field walk.page ++ ofHead head children)
    (path : List Text) : ∀ (nodes : List Node) (walk walk' : Walk),
    visitAll config path nodes walk = .ok walk' →
      field walk'.page = field walk.page ++ traceNodes ofText ofHead path nodes
  | [], walk, walk', h => by
    simp only [visitAll, Except.ok.injEq] at h
    subst h
    simp [traceNodes]
  | node :: rest, walk, walk', h => by
    rw [visitAll, bind_eq_ok] at h
    obtain ⟨middle, hnode, h⟩ := h
    have hfirst := visit_adds hText hHead path node walk middle hnode
    have hrest := visitAll_adds hText hHead path rest middle walk' h
    rw [traceNodes, hrest, hfirst, List.append_assoc]
end

end Growth

section Invariant
variable {P : Page → Prop}

mutual
theorem visit_preserves (hText : ∀ page content context, P page → P (collect page content context))
    (hHead : ∀ head children walk walk', visitHead config head children walk = .ok walk' →
      P walk.page → P walk'.page)
    (path : List Text) : ∀ (node : Node) (walk walk' : Walk),
    visit config path node walk = .ok walk' → P walk.page → P walk'.page
  | .text content, walk, walk', h, hp => by
    simp only [visit, Except.ok.injEq] at h
    subst h
    exact hText walk.page content _ hp
  | .element head children, walk, walk', h, hp => by
    obtain ⟨entered, hhead, h⟩ := visit_element_cases h
    have hentered := hHead head children walk entered hhead hp
    rcases h with ⟨-, left, hall, rfl⟩ | ⟨-, hall⟩
    · exact visitAll_preserves hText hHead (path ++ [head.tag]) children
        (entered.enter (blockOf head)) left hall hentered
    · exact visitAll_preserves hText hHead (path ++ [head.tag]) children entered walk' hall hentered

theorem visitAll_preserves
    (hText : ∀ page content context, P page → P (collect page content context))
    (hHead : ∀ head children walk walk', visitHead config head children walk = .ok walk' →
      P walk.page → P walk'.page)
    (path : List Text) : ∀ (nodes : List Node) (walk walk' : Walk),
    visitAll config path nodes walk = .ok walk' → P walk.page → P walk'.page
  | [], walk, walk', h, hp => by
    simp only [visitAll, Except.ok.injEq] at h
    exact h ▸ hp
  | node :: rest, walk, walk', h, hp => by
    rw [visitAll, bind_eq_ok] at h
    obtain ⟨middle, hnode, h⟩ := h
    have hmiddle := visit_preserves hText hHead path node walk middle hnode hp
    exact visitAll_preserves hText hHead path rest middle walk' h hmiddle
end

end Invariant

theorem bind_frame (head : Head) (attr : Attribute) (page : Page) :
    ∃ bs cs, bind head attr page = { page with inputBindings := bs, buttonActions := cs } := by
  rw [bind]
  split_ifs
  · exact ⟨_, _, rfl⟩
  · split <;> exact ⟨_, _, rfl⟩
  · split <;> exact ⟨_, _, rfl⟩
  · exact ⟨_, _, rfl⟩

theorem visitAttributes_frame (head : Head) (page : Page) :
    ∃ es rs bs cs, visitAttributes head page =
      { page with
        expressions := es, fieldReferences := rs, inputBindings := bs, buttonActions := cs } := by
  have hstep : ∀ (page : Page) (attr : Attribute), ∃ es rs bs cs, visitAttribute head page attr =
      { page with
        expressions := es, fieldReferences := rs, inputBindings := bs, buttonActions := cs } := by
    intro page attr
    obtain ⟨bs, cs, h⟩ :=
      bind_frame head attr (collect page attr.value (head.tag ++ '.' :: attr.name))
    exact ⟨_, _, bs, cs, h⟩
  have hfold : ∀ (attributes : List Attribute) (page : Page), ∃ es rs bs cs,
      attributes.foldl (visitAttribute head) page =
        { page with
          expressions := es, fieldReferences := rs, inputBindings := bs, buttonActions := cs } := by
    intro attributes
    induction attributes with
    | nil => exact fun page => ⟨_, _, _, _, rfl⟩
    | cons attr rest ih =>
      intro page
      obtain ⟨es, rs, bs, cs, h⟩ := hstep page attr
      rw [List.foldl_cons, h]
      obtain ⟨es', rs', bs', cs', h'⟩ := ih { page with
        expressions := es, fieldReferences := rs, inputBindings := bs, buttonActions := cs }
      exact ⟨es', rs', bs', cs', h'⟩
  exact hfold head.attributes page

theorem visitAttributes_adds (field : Page → List α) {head : Head}
    {ofAttribute : Attribute → List α}
    (hAttribute : ∀ page attr, field (visitAttribute head page attr) = field page ++
    ofAttribute attr)
    (page : Page) :
    field (visitAttributes head page) = field page ++ head.attributes.flatMap ofAttribute := by
  rw [visitAttributes]
  induction head.attributes generalizing page with
  | nil => simp
  | cons attr attributes ih =>
    rw [List.foldl_cons, ih, hAttribute, List.flatMap_cons, List.append_assoc]

theorem visitHead_frame {head : Head} {children : List Node} {walk walk' : Walk}
    (h : visitHead config head children walk = .ok walk') :
    ∃ usages names forms supports panels, walk'.page = { visitAttributes head walk.page with
      components := usages, customComponents := names, formCount := forms,
      actionSupports := supports, outputPanels := panels } := by
  rw [visitHead_eq, map_eq_ok] at h
  obtain ⟨page, htag, rfl⟩ := h
  obtain ⟨usages, names, hadd⟩ : ∃ usages names,
      addUsage config head (visitAttributes head walk.page) =
        { visitAttributes head walk.page with
          components := usages, customComponents := names } := by
    rw [addUsage]
    cases usage? head with
    | none => exact ⟨_, _, rfl⟩
    | some usage => exact ⟨_, _, rfl⟩
  rw [hadd] at htag
  rcases visitTag_cases htag with ⟨-, rfl⟩ | ⟨-, rfl⟩ | ⟨-, found, -, rfl⟩ | ⟨-, -, -, rfl⟩ <;>
    exact ⟨_, _, _, _, _, rfl⟩

/-- A page without the lists and the count that a walk adds to. -/
def outline (page : Page) : Page :=
  { page with
    components := [], fieldReferences := [], actionSupports := [], outputPanels := [], formCount :=
      0,
    expressions := [], inputBindings := [], buttonActions := [], customComponents := [] }

theorem outline_visitAttributes (head : Head) (page : Page) :
    outline (visitAttributes head page) = outline page := by
  obtain ⟨es, rs, bs, cs, h⟩ := visitAttributes_frame head page
  rw [h]
  rfl

theorem outline_visitHead {head : Head} {children : List Node} {walk walk' : Walk}
    (h : visitHead config head children walk = .ok walk') :
    outline walk'.page = outline walk.page := by
  rw [visitHead_eq, map_eq_ok] at h
  obtain ⟨page, htag, rfl⟩ := h
  have hadd : ∀ page, outline (addUsage config head page) = outline page := by
    intro page
    rw [addUsage]
    cases usage? head <;> rfl
  have hbefore := (hadd _).trans (outline_visitAttributes head walk.page)
  refine Eq.trans ?_ hbefore
  rcases visitTag_cases htag with ⟨-, rfl⟩ | ⟨-, rfl⟩ | ⟨-, found, -, rfl⟩ | ⟨-, -, -, rfl⟩ <;> rfl

theorem visitAll_outline {path : List Text} {nodes : List Node} {walk walk' : Walk}
    (h : visitAll config path nodes walk = .ok walk') : outline walk'.page = outline walk.page :=
  visitAll_preserves (P := fun page => outline page = outline walk.page)
    (fun _ _ _ hp => hp) (fun _ _ _ _ hhead hp => (outline_visitHead hhead).trans hp)
    path nodes walk walk' h rfl

/-- Both limits that a walk may need are set. -/
def HasPreviewLimits (config : Config) : Prop :=
  config.previewLength.isSome ∧ config.summaryLength.isSome

instance (config : Config) : Decidable (HasPreviewLimits config) :=
  inferInstanceAs (Decidable (_ ∧ _))

theorem Text.truncate?_of_isSome {limit : Option Int} (h : limit.isSome) (text : Text) :
    ∃ cut, Text.truncate? limit text = .ok cut := by
  obtain ⟨n, rfl⟩ := Option.isSome_iff_exists.mp h
  exact ⟨_, rfl⟩

theorem preview_ok (h : HasPreviewLimits config) (children : List Node) :
    ∃ found, preview config children = .ok found := by
  simp only [preview]
  split
  · obtain ⟨cut, hcut⟩ := Text.truncate?_of_isSome h.1 (Text.collapse _)
    exact ⟨some cut, by rw [hcut]; rfl⟩
  · split
    · exact ⟨none, rfl⟩
    · obtain ⟨cut, hcut⟩ := Text.truncate?_of_isSome h.2 (Text.joinWith ", ".toList _)
      exact ⟨some cut, by rw [hcut]; rfl⟩

theorem visitTag_ok (h : HasPreviewLimits config) (head : Head) (children : List Node)
    (page : Page) :
    ∃ page', visitTag config head children page = .ok page' := by
  obtain ⟨found, hfound⟩ := preview_ok h children
  simp only [visitTag, hfound]
  split_ifs
  · exact ⟨_, rfl⟩
  · exact ⟨_, rfl⟩
  · exact ⟨_, rfl⟩
  · exact ⟨_, rfl⟩

theorem visitHead_ok (h : HasPreviewLimits config) (head : Head) (children : List Node)
    (walk : Walk) :
    ∃ walk', visitHead config head children walk = .ok walk' := by
  obtain ⟨page, hpage⟩ :=
    visitTag_ok h head children (addUsage config head (visitAttributes head walk.page))
  exact ⟨_, by rw [visitHead_eq, hpage]; rfl⟩

mutual
theorem visit_ok (h : HasPreviewLimits config) (path : List Text) :
    ∀ (node : Node) (walk : Walk), ∃ walk', visit config path node walk = .ok walk'
  | .text content, walk => ⟨_, by rw [visit]⟩
  | .element head children, walk => by
    obtain ⟨entered, hentered⟩ := visitHead_ok h head children walk
    by_cases hblock : head.tag = blockTag
    · obtain ⟨left, hleft⟩ := visitAll_ok h (path ++ [head.tag]) children
        (entered.enter (blockOf head))
      exact ⟨left.leave, by rw [visit_block hblock, hentered, ok_bind, hleft]; rfl⟩
    · obtain ⟨left, hleft⟩ := visitAll_ok h (path ++ [head.tag]) children entered
      exact ⟨left, by rw [visit_of_ne hblock, hentered, ok_bind, hleft]⟩

theorem visitAll_ok (h : HasPreviewLimits config) (path : List Text) :
    ∀ (nodes : List Node) (walk : Walk), ∃ walk', visitAll config path nodes walk = .ok walk'
  | [], walk => ⟨walk, by simp only [visitAll]⟩
  | node :: rest, walk => by
    obtain ⟨middle, hmiddle⟩ := visit_ok h path node walk
    rw [visitAll, hmiddle, ok_bind]
    exact visitAll_ok h path rest middle
end

/-- With both limits set every tree can be read. -/
theorem ofTree_ok (h : HasPreviewLimits config) (root : Element) :
    ∃ page, ofTree config root = .ok page := by
  obtain ⟨walk, hwalk⟩ := visitAll_ok h [root.head.tag] root.children
    ⟨visitAttributes root.head (ofRoot root.head), .empty⟩
  exact ⟨_, by rw [ofTree, hwalk]; rfl⟩

theorem ofTree_eq_ok {root : Element} {page : Page} (h : ofTree config root = .ok page) :
    ∃ walk, visitAll config [root.head.tag] root.children
        ⟨visitAttributes root.head (ofRoot root.head), .empty⟩ = .ok walk ∧
      page = { walk.page with blocks := walk.blocks.blocks } := by
  rw [ofTree, bind_eq_ok] at h
  obtain ⟨walk, hwalk, h⟩ := h
  exact ⟨walk, hwalk, (Except.ok.inj h).symm⟩

/-- A list of a page that only attributes and texts add to holds what they add in document order,
the attributes of an element before what lies below it. -/
theorem ofTree_adds (field : Page → List α) {ofText : List Text → Text → List α}
    {ofAttribute : Head → Attribute → List α}
    (hText : ∀ path content page,
      field (collect page content (Text.joinWith ['.'] path)) = field page ++ ofText path content)
    (hAttribute : ∀ head page attr,
      field (visitAttribute head page attr) = field page ++ ofAttribute head attr)
    (hFrame : ∀ page usages names forms supports panels blocks, field { page with
      components := usages, customComponents := names, formCount := forms,
      actionSupports := supports, outputPanels := panels, blocks := blocks } = field page)
    {root : Element} {page : Page} (h : ofTree config root = .ok page) :
    field page = field (ofRoot root.head) ++
      (root.head.attributes.flatMap (ofAttribute root.head) ++
      traceNodes ofText (fun head _ => head.attributes.flatMap (ofAttribute head)) [root.head.tag]
        root.children) := by
  obtain ⟨walk, hwalk, rfl⟩ := ofTree_eq_ok h
  have hHead : ∀ head children walk walk', visitHead config head children walk = .ok walk' →
      field walk'.page = field walk.page ++ head.attributes.flatMap (ofAttribute head) := by
    intro head children walk walk' hhead
    obtain ⟨usages, names, forms, supports, panels, hpage⟩ := visitHead_frame hhead
    rw [hpage, ← visitAttributes_adds field (hAttribute head)]
    exact hFrame _ usages names forms supports panels _
  have hall := visitAll_adds field hText hHead [root.head.tag] root.children _ walk hwalk
  rw [visitAttributes_adds field (hAttribute root.head), List.append_assoc] at hall
  rw [← hall]
  exact hFrame walk.page _ _ _ _ _ walk.blocks.blocks

theorem ofTree_outline {root : Element} {page : Page} (h : ofTree config root = .ok page) :
    outline { page with blocks := [] } = ofRoot root.head := by
  obtain ⟨walk, hwalk, rfl⟩ := ofTree_eq_ok h
  have hkeep : outline { walk.page with blocks := [] } =
      { outline (visitAttributes root.head (ofRoot root.head)) with blocks := [] } := by
    rw [← visitAll_outline hwalk]
    rfl
  rw [outline_visitAttributes] at hkeep
  exact hkeep

end Visualforce.Page
