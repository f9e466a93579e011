import Visualforce.Config
import Visualforce.Page.Blocks
import Visualforce.Text.Limit

/-! # Reading a page from its tree

The tree is walked in document order. Each element contributes the expressions in its attributes,
then itself as a component, block, panel or form, then its children. Only the preview of a panel can
fail, namely when the limit it needs is unset.
-/
namespace Visualforce.Page
open Markup

def blockTag : Text := "apex:pageBlock".toList

def formTag : Text := "apex:form".toList

def actionSupportTag : Text := "apex:actionSupport".toList

def outputPanelTag : Text := "apex:outputPanel".toList

def isInputName (name : Text) : Bool :=
  "input".toList.isPrefixOf name || "select".toList.isPrefixOf name

def isCommandName (name : Text) : Bool :=
  name == "commandButton".toList || name == "commandLink".toList

/-- The page as read so far; its blocks stay on a stack of their own. -/
structure Walk where
  page : Page
  blocks : BlockStack
deriving DecidableEq, Repr

def collect (page : Page) (text context : Text) : Page :=
  let collection := Expression.Collection.scan ⟨page.expressions, page.fieldReferences⟩ text context
  { page with expressions := collection.expressions, fieldReferences := collection.references }

/-- A value attribute of an input binds its first expression, an action attribute of a command
invokes it. -/
def bind (head : Head) (attr : Attribute) (page : Page) : Page :=
  if !head.isNamespaced then page
  else if attr.name == "value".toList && isInputName head.name then
    match Expression.first? attr.value with
    | some binding => { page with inputBindings := page.inputBindings ++ [binding] }
    | none => page
  else if attr.name == "action".toList && isCommandName head.name then
    match Expression.first? attr.value with
    | some action => { page with buttonActions := page.buttonActions ++ [action] }
    | none => page
  else page

def visitAttribute (head : Head) (page : Page) (attr : Attribute) : Page :=
  bind head attr (collect page attr.value (head.tag ++ '.' :: attr.name))

def visitAttributes (head : Head) (page : Page) : Page :=
  head.attributes.foldl (visitAttribute head) page

def usage? (head : Head) : Option ComponentUsage :=
  if head.isNamespaced then some ⟨head.namespace?.getD [], head.name, head.attributeMap⟩ else none

def visitUsage (config : Config) (usage : ComponentUsage) (walk : Walk) : Walk where
  page := { walk.page with
    components := walk.page.components ++ [usage]
    customComponents :=
      if config.customNamespaces.contains usage.space then
        walk.page.customComponents ++ [usage.name]
      else walk.page.customComponents }
  blocks := walk.blocks.record usage

def supportOf (head : Head) : ActionSupport :=
  ⟨head.get? "event".toList, head.get? "reRender".toList, head.get? "action".toList,
    head.get? "status".toList⟩

/-- The first text in the panel, or else the tags of its elements. -/
def preview (config : Config) (children : List Node) : Except LimitError (Option Text) :=
  match (children.filterMap Node.text?).find? (!Text.isBlankText ·) with
  | some text => do return some (← Text.truncate? config.previewLength (Text.collapse text))
  | none =>
    match children.filterMap Node.tag? with
    | [] => .ok none
    | tags => do
      return some (← Text.truncate? config.summaryLength (Text.joinWith ", ".toList tags))

def visitTag (config : Config) (head : Head) (children : List Node) (page : Page) :
    Except LimitError Page :=
  if head.tag == formTag then .ok { page with formCount := page.formCount + 1 }
  else if head.tag == actionSupportTag then
    .ok { page with actionSupports := page.actionSupports ++ [supportOf head] }
  else if head.tag == outputPanelTag then do
    let preview ← preview config children
    let panel : OutputPanel := ⟨head.get? "id".toList, head.get? "layout".toList, preview⟩
    return { page with outputPanels := page.outputPanels ++ [panel] }
  else .ok page

/-- What an element contributes before its children. -/
def visitHead (config : Config) (head : Head) (children : List Node) (walk : Walk) :
    Except LimitError Walk := do
  let walk := { walk with page := visitAttributes head walk.page }
  let walk :=
    match usage? head with
    | some usage => visitUsage config usage walk
    | none => walk
  let page ← visitTag config head children walk.page
  return { walk with page }

def blockOf (head : Head) : PageBlock := ⟨head.get? "title".toList, head.get? "id".toList, []⟩

mutual
def visit (config : Config) (path : List Text) : Node → Walk → Except LimitError Walk
  | .text content, walk =>
    .ok { walk with page := collect walk.page content (Text.joinWith ['.'] path) }
  | .element head children, walk => do
    let walk ← visitHead config head children walk
    if head.tag == blockTag then
      let walk := { walk with blocks := walk.blocks.enter (blockOf head) }
      let walk ← visitAll config (path ++ [head.tag]) children walk
      return { walk with blocks := walk.blocks.exit }
    else visitAll config (path ++ [head.tag]) children walk

def visitAll (config : Config) (path : List Text) : List Node → Walk → Except LimitError Walk
  | [], walk => .ok walk
  | node :: rest, walk => do visitAll config path rest (← visit config path node walk)
end

def extensionsOf (value : Text) : List Text :=
  ((Text.splitWhere (· == ',') value).map Text.trim).filter (!·.isEmpty)

def present? (value : Option Text) : Option Text := value.bind nonEmpty?

/-- What the root element says about the page. -/
def ofRoot (head : Head) : Page :=
  { Page.empty .tree with
    controller := present? (head.get? "standardController".toList)
    customController := present? (head.get? "controller".toList)
    extensions := extensionsOf ((head.get? "extensions".toList).getD [])
    apiVersion := present? (head.get? "apiVersion".toList)
    label := present? (head.get? "label".toList) }

/-- Reads a page from its tree. The attributes of the root count, but the root is no component. -/
def ofTree (config : Config) (root : Element) : Except LimitError Page := do
  let start : Walk := ⟨visitAttributes root.head (ofRoot root.head), .empty⟩
  let walk ← visitAll config [root.head.tag] root.children start
  return { walk.page with blocks := walk.blocks.blocks }

end Visualforce.Page
