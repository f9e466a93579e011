import Visualforce.Data.Value
import Visualforce.Expression.Collection
import Visualforce.Markup.Tree

/-! # The model of a page

What is known of a page after it has been read: its controllers and settings, the components it
uses, its blocks, panels, scripts and expressions, and the entities it depends on.
-/
namespace Visualforce

/-- One occurrence of a namespaced element. -/
structure ComponentUsage where
  space : Text
  name : Text
  attributes : Markup.AttributeMap
deriving DecidableEq, Repr

def ComponentUsage.qualifiedName (usage : ComponentUsage) : Text := usage.space ++ ':' :: usage.name

/-- A titled section with the components that stand directly in it. -/
structure PageBlock where
  title : Option Text
  id : Option Text
  components : List ComponentUsage
deriving DecidableEq, Repr

structure ActionSupport where
  event : Option Text
  reRender : Option Text
  action : Option Text
  status : Option Text
deriving DecidableEq, Repr

structure OutputPanel where
  id : Option Text
  layout : Option Text
  preview : Option Text
deriving DecidableEq, Repr

inductive ScriptKind where
  | staticResource
  | inlineScript
  | externalUrl
deriving DecidableEq, Repr

def ScriptKind.label : ScriptKind → Text
  | staticResource => "StaticResource".toList
  | inlineScript => "InlineScript".toList
  | externalUrl => "ExternalUrl".toList

structure ScriptReference where
  kind : ScriptKind
  value : Text
deriving DecidableEq, Repr

/-- How a page was read. -/
inductive Mode where
  | tree
  | fallback
  | lightweight
deriving DecidableEq, Repr

def Mode.label : Mode → Text
  | tree => "tree".toList
  | fallback => "fallback".toList
  | lightweight => "lightweight".toList

structure Page where
  controller : Option Text
  customController : Option Text
  extensions : List Text
  apiVersion : Option Text
  label : Option Text
  components : List ComponentUsage
  fieldReferences : List FieldReference
  blocks : List PageBlock
  actionSupports : List ActionSupport
  outputPanels : List OutputPanel
  scripts : List ScriptReference
  formCount : Nat
  hasRemoteObjects : Bool
  hasStaticResources : Bool
  templateFragments : List Text
  expressions : List Text
  inputBindings : List Text
  buttonActions : List Text
  customComponents : List Text
  entities : List Text
  entityFields : List Text
  mode : Mode
  warnings : List Text
deriving DecidableEq, Repr

namespace Page

def empty (mode : Mode) : Page where
  controller := none
  customController := none
  extensions := []
  apiVersion := none
  label := none
  components := []
  fieldReferences := []
  blocks := []
  actionSupports := []
  outputPanels := []
  scripts := []
  formCount := 0
  hasRemoteObjects := false
  hasStaticResources := false
  templateFragments := []
  expressions := []
  inputBindings := []
  buttonActions := []
  customComponents := []
  entities := []
  entityFields := []
  mode := mode
  warnings := []

def warn (page : Page) (warning : Text) : Page :=
  { page with warnings := page.warnings ++ [warning] }

def componentCount (page : Page) : Nat := page.components.length

end Page

def ComponentUsage.toValue (usage : ComponentUsage) : Value :=
  .record [("namespace", .text usage.space), ("name", .text usage.name),
    ("attributes", .object (usage.attributes.map fun (name, value) => (name, .text value)))]

def FieldReference.toValue (reference : FieldReference) : Value :=
  .record [("expression", .text reference.expression), ("context", .text reference.context),
    ("sobject_name", .ofText? reference.entity), ("field_name", .ofText? reference.field)]

def PageBlock.toValue (block : PageBlock) : Value :=
  .record [("title", .ofText? block.title), ("id", .ofText? block.id),
    ("components", .list (block.components.map (·.toValue)))]

def ActionSupport.toValue (support : ActionSupport) : Value :=
  .record [("event", .ofText? support.event), ("re_render", .ofText? support.reRender),
    ("action", .ofText? support.action), ("status", .ofText? support.status)]

def OutputPanel.toValue (panel : OutputPanel) : Value :=
  .record [("id", .ofText? panel.id), ("layout", .ofText? panel.layout),
    ("content_preview", .ofText? panel.preview)]

def ScriptReference.toValue (script : ScriptReference) : Value :=
  .record [("type", .text script.kind.label), ("value", .text script.value)]

def Page.toValue (page : Page) : Value :=
  .record [
    ("controller_name", .ofText? page.controller),
    ("custom_controller_name", .ofText? page.customController),
    ("extension_names", .ofTexts page.extensions),
    ("api_version", .ofText? page.apiVersion),
    ("page_label", .ofText? page.label),
    ("components", .list (page.components.map (·.toValue))),
    ("field_references", .list (page.fieldReferences.map (·.toValue))),
    ("page_blocks", .list (page.blocks.map (·.toValue))),
    ("action_supports", .list (page.actionSupports.map (·.toValue))),
    ("output_panels", .list (page.outputPanels.map (·.toValue))),
    ("scripts", .list (page.scripts.map (·.toValue))),
    ("form_count", .int page.formCount),
    ("has_remote_objects", .bool page.hasRemoteObjects),
    ("has_static_resources", .bool page.hasStaticResources),
    ("template_fragments", .ofTexts page.templateFragments),
    ("apex_expressions", .ofTexts page.expressions),
    ("input_bindings", .ofTexts page.inputBindings),
    ("button_actions", .ofTexts page.buttonActions),
    ("custom_components", .ofTexts page.customComponents),
    ("sobject_references", .ofTexts page.entities),
    ("detailed_field_references", .ofTexts page.entityFields),
    ("extraction_mode", .text page.mode.label),
    ("warnings", .ofTexts page.warnings),
    ("component_count", .int page.componentCount)]

end Visualforce
