import Visualforce.Proofs.Expression.Fields
import Visualforce.Proofs.Page.BlockAttribution

/-! # Expressions and where they stand

An expression of a tree stands in an attribute of an element or in a text below some tags. A page
read from the tree collects all of them in document order, the attributes of an element before what
lies below it: simple references with the context they stand in, the others without. What inputs and
commands are bound to is among them.
-/
namespace Visualforce.Page
open Markup Expression

variable {config : Config}

/-- Where an expression stands. A text stands below the tags of `path`, the root first. -/
inductive Site where
  | inAttribute (head : Head) (name : Text)
  | inText (path : List Text)
deriving DecidableEq

def Site.context : Site → Text
  | inAttribute head name => head.tag ++ '.' :: name
  | inText path => Text.joinWith ['.'] path

structure Mention where
  content : Text
  site : Site
deriving DecidableEq

namespace Mention

def isSimple (mention : Mention) : Bool := classify mention.content == .simpleReference

def toReference (mention : Mention) : FieldReference :=
  .unresolved mention.content mention.site.context

end Mention

def mentionsIn (text : Text) (site : Site) : List Mention := (find text).map (⟨·, site⟩)

def mentionsInHead (head : Head) : List Mention :=
  head.attributes.flatMap fun attr => mentionsIn attr.value (.inAttribute head attr.name)

def mentionsInNodes (path : List Text) (nodes : List Node) : List Mention :=
  traceNodes (fun path content => mentionsIn content (.inText path))
    (fun head _ => mentionsInHead head)
    path nodes

/-- All expressions of a tree, in its attributes and texts, in document order. -/
def mentions (root : Element) : List Mention :=
  mentionsInHead root.head ++ mentionsInNodes [root.head.tag] root.children

def complexOf (listed : List Mention) : List Text := (listed.filter (!·.isSimple)).map (·.content)

/-- The simple ones among the mentions, as references in their contexts. -/
def referencesOf (listed : List Mention) : List FieldReference :=
  (listed.filter (·.isSimple)).map (·.toReference)

theorem collect_mentions (page : Page) (text : Text) (site : Site) :
    (collect page text site.context).expressions =
      page.expressions ++ complexOf (mentionsIn text site) ∧
    (collect page text site.context).fieldReferences =
      page.fieldReferences ++ referencesOf (mentionsIn text site) := by
  simp [collect, Collection.scan_eq, complexOf, referencesOf, mentionsIn, List.filter_map,
    Function.comp_def, Mention.isSimple, Mention.toReference, bne]

theorem ofTree_collects {α : Type} (field : Page → List α) {shown : List Mention → List α}
    (hnil : shown [] = [])
    (happend : ∀ few others, shown (few ++ others) = shown few ++ shown others)
    (hcollect : ∀ page text site,
      field (collect page text site.context) = field page ++ shown (mentionsIn text site))
    (hframe : ∀ page usages names forms supports panels blocks bindings actions, field { page with
      components := usages, customComponents := names, formCount := forms, actionSupports :=
        supports,
      outputPanels := panels, blocks := blocks, inputBindings := bindings,
      buttonActions := actions } = field page)
    {root : Element} {page : Page} (h : ofTree config root = .ok page) :
    field page = field (ofRoot root.head) ++ shown (mentions root) := by
  have hattribute : ∀ head page attr, field (visitAttribute head page attr) =
      field page ++ shown (mentionsIn attr.value (.inAttribute head attr.name)) := by
    intro head page attr
    obtain ⟨bindings, actions, hbind⟩ :=
      bind_frame head attr (collect page attr.value (head.tag ++ '.' :: attr.name))
    rw [visitAttribute, hbind, ← hcollect page attr.value (.inAttribute head attr.name)]
    exact hframe _ _ _ _ _ _ _ bindings actions
  have hhead : ∀ head : Head, shown (mentionsInHead head) = head.attributes.flatMap fun attr =>
      shown (mentionsIn attr.value (.inAttribute head attr.name)) := by
    intro head
    rw [mentionsInHead]
    induction head.attributes with
    | nil => exact hnil
    | cons attr attributes ih => rw [List.flatMap_cons, happend, ih, List.flatMap_cons]
  have hadds := ofTree_adds field (fun path content page => hcollect page content (.inText path))
    hattribute (fun page _ _ _ _ _ _ => hframe page _ _ _ _ _ _ _ _) h
  simp only [← hhead] at hadds
  rw [hadds, traceNodes_image hnil happend, ← happend]
  rfl

theorem ofTree_expressions {root : Element} {page : Page} (h : ofTree config root = .ok page) :
    page.expressions = complexOf (mentions root) :=
  ofTree_collects (·.expressions) rfl (by simp [complexOf])
    (fun page text site => (collect_mentions page text site).1) (fun _ _ _ _ _ _ _ _ _ => rfl) h

theorem ofTree_references {root : Element} {page : Page} (h : ofTree config root = .ok page) :
    page.fieldReferences = referencesOf (mentions root) :=
  ofTree_collects (·.fieldReferences) rfl (by simp [referencesOf])
    (fun page text site => (collect_mentions page text site).2) (fun _ _ _ _ _ _ _ _ _ => rfl) h

/-- The first expression in an attribute with the given name, if its element is a component that it
suits. -/
def firstIn (name : Text) (suits : Text → Bool) (head : Head) (attr : Attribute) : List Text :=
  if head.isNamespaced && (attr.name == name && suits head.name) then (first? attr.value).toList
    else []

theorem bind_inputBindings (head : Head) (attr : Attribute) (page : Page) :
    (bind head attr page).inputBindings =
      page.inputBindings ++ firstIn "value".toList isInputName head attr := by
  rw [bind, firstIn]
  cases head.isNamespaced with
  | false => simp
  | true =>
    cases attr.name == "value".toList && isInputName head.name with
    | true => cases first? attr.value <;> simp
    | false =>
      cases attr.name == "action".toList && isCommandName head.name with
      | true => cases first? attr.value <;> simp
      | false => simp

theorem bind_buttonActions (head : Head) (attr : Attribute) (page : Page) :
    (bind head attr page).buttonActions =
      page.buttonActions ++ firstIn "action".toList isCommandName head attr := by
  rw [bind, firstIn]
  cases head.isNamespaced with
  | false => simp
  | true =>
    cases hvalue : attr.name == "value".toList && isInputName head.name with
    | true =>
      -- A value is no action, so that nothing is invoked where an input is bound.
      have hname : attr.name = "value".toList := by
        rw [Bool.and_eq_true, beq_iff_eq] at hvalue
        exact hvalue.1
      have hother : (attr.name == "action".toList && isCommandName head.name) = false := by
        rw [hname]
        rfl
      rw [hother]
      cases first? attr.value <;> simp
    | false =>
      cases attr.name == "action".toList && isCommandName head.name with
      | true => cases first? attr.value <;> simp
      | false => simp

/-- The heads of all elements of a tree in document order. -/
def headsIn (root : Element) : List Head := root.head :: root.below.map (·.head)

/-- A list of a page that only bindings add to holds what is bound at each head in document
order. -/
theorem ofTree_binds (field : Page → List Text) {name : Text} {suits : Text → Bool}
    (hbind : ∀ head attr page,
      field (bind head attr page) = field page ++ firstIn name suits head attr)
    (hcollect : ∀ page text context, field (collect page text context) = field page)
    (hframe : ∀ page usages names forms supports panels blocks, field { page with
      components := usages, customComponents := names, formCount := forms,
      actionSupports := supports, outputPanels := panels, blocks := blocks } = field page)
    {root : Element} {page : Page} (h : ofTree config root = .ok page) :
    field page = field (ofRoot root.head) ++
      (headsIn root).flatMap fun head => head.attributes.flatMap (firstIn name suits head) := by
  have htext : ∀ (path : List Text) content page,
      field (collect page content (Text.joinWith ['.'] path)) = field page ++ [] := fun _ _ _ => by
    rw [hcollect, List.append_nil]
  have hadds := ofTree_adds field htext
    (fun head page attr => by rw [visitAttribute, hbind, hcollect]) hframe h
  rw [hadds, traceNodes_heads (fun head => head.attributes.flatMap (firstIn name suits head)) _ []
    0, headsIn, List.flatMap_cons, List.flatMap_map]
  rfl

theorem exists_mention_of_firstIn {name content : Text} {suits : Text → Bool} {head : Head}
    {attr : Attribute} (hattr : attr ∈ head.attributes)
    (h : content ∈ firstIn name suits head attr) :
    head.isNamespaced = true ∧
      ∃ mention ∈ mentionsInHead head,
        mention.content = content ∧ mention.site = .inAttribute head name := by
  rw [firstIn] at h
  split at h
  · rename_i hsuits
    rw [Bool.and_eq_true, Bool.and_eq_true, beq_iff_eq] at hsuits
    obtain ⟨hspace, rfl, -⟩ := hsuits
    have hfound : content ∈ find attr.value := List.mem_of_head? (Option.mem_toList.mp h)
    refine ⟨hspace, ⟨content, .inAttribute head attr.name⟩, ?_, rfl, rfl⟩
    exact List.mem_flatMap.mpr ⟨attr, hattr, List.mem_map_of_mem hfound⟩
  · cases h

mutual
theorem mem_traceNode {α : Type} {ofText : List Text → Text → List α} {ofHead : Head → List α}
    {a : α}
    {o : Occurrence} (ha : a ∈ ofHead o.head) (path : List Text) (place : List Nat) :
    ∀ node : Node, o ∈ node.occurrences place → a ∈ traceNode ofText (fun head _ => ofHead head)
      path node
  | .text content, h => by simp [Node.occurrences] at h
  | .element head children, h => by
    rw [traceNode, List.mem_append]
    rw [Node.occurrences, List.mem_cons] at h
    rcases h with rfl | h
    · exact .inl ha
    · exact .inr (mem_traceNodes ha (path ++ [head.tag]) place 0 children h)

/-- What the head of an element yields is part of the trace. -/
theorem mem_traceNodes {α : Type} {ofText : List Text → Text → List α} {ofHead : Head → List α}
    {a : α}
    {o : Occurrence} (ha : a ∈ ofHead o.head) (path : List Text) (place : List Nat) (first : Nat) :
    ∀ nodes : List Node, o ∈ occurrencesIn place first nodes →
      a ∈ traceNodes ofText (fun head _ => ofHead head) path nodes
  | [], h => by simp [occurrencesIn] at h
  | node :: rest, h => by
    rw [traceNodes, List.mem_append]
    rw [occurrencesIn, List.mem_append] at h
    rcases h with h | h
    · exact .inl (mem_traceNode ha path (place ++ [first]) node h)
    · exact .inr (mem_traceNodes ha path place (first + 1) rest h)
end

theorem mem_mentions {root : Element} {head : Head} {mention : Mention}
    (hhead : head ∈ headsIn root)
    (h : mention ∈ mentionsInHead head) : mention ∈ mentions root := by
  rw [mentions, List.mem_append]
  rcases List.mem_cons.mp hhead with rfl | hhead
  · exact .inl h
  · obtain ⟨o, ho, rfl⟩ := List.mem_map.mp hhead
    exact .inr (mem_traceNodes h [root.head.tag] [] 0 root.children ho)

/-- What is bound anywhere in a tree is mentioned in an attribute of a component. -/
theorem exists_mention_of_bound {name content : Text} {suits : Text → Bool} {root : Element}
    (h : content ∈ (headsIn root).flatMap fun head => head.attributes.flatMap
    (firstIn name suits head)) :
    ∃ mention ∈ mentions root, mention.content = content ∧ ∃ head ∈ headsIn root,
      head.isNamespaced = true ∧ mention.site = .inAttribute head name := by
  obtain ⟨head, hhead, h⟩ := List.mem_flatMap.mp h
  obtain ⟨attr, hattr, h⟩ := List.mem_flatMap.mp h
  obtain ⟨hspace, mention, hmention, hcontent, hsite⟩ := exists_mention_of_firstIn hattr h
  exact ⟨mention, mem_mentions hhead hmention, hcontent, head, hhead, hspace, hsite⟩

/-- With both preview limits set, reading a tree collects its expressions in document order,
repetitions included: those that are no simple references as they are, and the simple ones with the
context they stand in. What inputs and commands are bound to is mentioned in an attribute of a
component of the tree. -/
theorem ofTree_collects_mentions (config : Config) (root : Element)
    (hlimits : HasPreviewLimits config) :
    ∃ page, ofTree config root = .ok page ∧
      page.expressions = complexOf (mentions root) ∧
      page.fieldReferences = referencesOf (mentions root) ∧
      ∀ content ∈ page.inputBindings ++ page.buttonActions,
        ∃ mention ∈ mentions root, mention.content = content ∧ ∃ head ∈ headsIn root,
          head.isNamespaced = true ∧ ∃ name, mention.site = .inAttribute head name := by
  obtain ⟨page, hpage⟩ := ofTree_ok hlimits root
  have hinputs := ofTree_binds (·.inputBindings) bind_inputBindings (fun _ _ _ => rfl)
    (fun _ _ _ _ _ _ _ => rfl) hpage
  have hactions := ofTree_binds (·.buttonActions) bind_buttonActions (fun _ _ _ => rfl)
    (fun _ _ _ _ _ _ _ => rfl) hpage
  refine ⟨page, hpage, ofTree_expressions hpage, ofTree_references hpage, fun content hcontent =>
    ?_⟩
  rw [hinputs, hactions] at hcontent
  have hbound : ∃ name suits, content ∈
      (headsIn root).flatMap fun head => head.attributes.flatMap (firstIn name suits head) := by
    rcases List.mem_append.mp hcontent with h | h
    · exact ⟨_, _, h⟩
    · exact ⟨_, _, h⟩
  obtain ⟨name, suits, h⟩ := hbound
  obtain ⟨mention, hmention, hsame, head, hhead, hspace, hsite⟩ := exists_mention_of_bound h
  exact ⟨mention, hmention, hsame, head, hhead, hspace, name, hsite⟩

/-- A page with a call in the root, and a text in a block that holds an input. -/
def boundPage : Element :=
  ⟨⟨"apex:page".toList, [⟨"action".toList, "\x7b!load()\x7d".toList⟩]⟩,
    [.element ⟨blockTag, [⟨"title".toList, "\x7b!name\x7d, \x7b!a.b\x7d".toList⟩]⟩
      [.text "\x7b!name\x7d".toList,
        .element ⟨"apex:inputField".toList, [⟨"value".toList, "\x7b!a.b\x7d\x7b!c\x7d".toList⟩]⟩
        []]]⟩

theorem ofTree_boundPage : HasPreviewLimits Config.standard ∧
    ∃ page, ofTree Config.standard boundPage = .ok page ∧
      page.expressions = ["load()", "a.b", "a.b"].map String.toList ∧
      page.fieldReferences.map (fun reference => (reference.expression, reference.context)) =
        [("name".toList, "apex:pageBlock.title".toList),
          ("name".toList, "apex:page.apex:pageBlock".toList),
          ("c".toList, "apex:inputField.value".toList)] := by
  have hlimits : HasPreviewLimits Config.standard := by decide
  obtain ⟨page, hpage, hexpressions, hreferences, -⟩ :=
    ofTree_collects_mentions Config.standard boundPage hlimits
  refine ⟨hlimits, page, hpage, ?_, ?_⟩
  · rw [hexpressions]
    decide +kernel
  · rw [hreferences]
    decide +kernel

end Visualforce.Page
