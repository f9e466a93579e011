import Visualforce.Markup.Opaque
import Visualforce.Page.Traversal

/-! # Reading a page without its tree

When markup gives no tree the page is recovered from patterns, in steps that do not depend on one
another. Nothing is nested: blocks hold no components and components no attributes. A step that
fails leaves a warning, and the other steps still run.
-/
namespace Visualforce.Page
open Pattern Markup

def pageTag : Pattern Unit :=
  anyCase "<apex:page" ++ wordEdge ++ group () (star tagItem) ++ char '>'

/-- The quoted value after a name and an equals sign. -/
def assignment (name : String) : Pattern Unit :=
  wordEdge ++ literal name ++ equalsSign ++ quoteMark ++ group () (star (noneOf "\"'")) ++ quoteMark

inductive NamePart where
  | space
  | name
deriving DecidableEq

def isComponentChar (c : Char) : Bool := Text.isWord c || c == '-'

def componentWord {κ : Type} : Pattern κ := one Char.isAlpha ++ star (one isComponentChar)

def componentName : Pattern NamePart :=
  char '<' ++ group .space componentWord ++ char ':' ++ group .name componentWord

/-- An expression inside the quoted value of an attribute, after a tag name. -/
def boundExpression (tag : Pattern Unit) (name : String) : Pattern Unit :=
  char '<' ++ plus (one isComponentChar) ++ char ':' ++ tag ++ wordEdge ++
    starLazy (noneOf ">") ++ wordEdge ++ literal name ++ equalsSign ++
    alt (char '"' ++ starLazy (noneOf "\"")) (char '\'' ++ starLazy (noneOf "'")) ++
    Expression.mergeField

def inputBinding : Pattern Unit :=
  boundExpression (alt (literal "input") (literal "select") ++ star wordChar) "value"

def buttonAction : Pattern Unit :=
  boundExpression (literal "command" ++ alt (literal "Button") (literal "Link")) "action"

def openTag (name : String) : Pattern Unit :=
  literal name ++ wordEdge ++ group () (star tagItem) ++ char '>'

inductive PanelPart where
  | attributes
  | slash
deriving DecidableEq

def panelOpening : Pattern PanelPart :=
  literal "<apex:outputPanel" ++ wordEdge ++ group .attributes (starLazy tagItem) ++
    group .slash (maybe (char '/')) ++ char '>'

def panelClosing : Pattern Unit := literal "</apex:outputPanel" ++ star blank ++ char '>'

/-- The value of an attribute, or of an assignment anywhere, that is not empty. -/
def setting? (attributes : AttributeMap) (name : String) (text : Text) : Option Text :=
  (present? (attributes.get? name.toList)).or
    (present? (((assignment name).search text).map (·.group ())))

def readSettings (page : Page) (visible : Text) : Page :=
  let attributes :=
    match pageTag.search visible with
    | some hit => attributesIn (hit.group ())
    | none => []
  { page with
    controller := setting? attributes "standardController" visible
    customController := setting? attributes "controller" visible
    extensions :=
      match setting? attributes "extensions" visible with
      | some value => extensionsOf value
      | none => page.extensions
    apiVersion := present? (attributes.get? "apiVersion".toList)
    label := present? (attributes.get? "label".toList) }

/-- The namespaced names in a text, without those of page roots. -/
def componentsIn (config : Config) (visible : Text) : List ComponentUsage :=
  ((componentName.hits visible).map fun hit =>
    (⟨hit.group .space, hit.group .name, []⟩ : ComponentUsage)).filter
      fun usage => !config.rootTags.contains usage.qualifiedName

def readComponents (config : Config) (page : Page) (visible : Text) : Page :=
  let found := componentsIn config visible
  { page with
    components := page.components ++ found
    customComponents := page.customComponents ++
      (found.filter fun usage => config.customNamespaces.contains usage.space).map (·.name) }

def readBindings (page : Page) (visible : Text) : Page :=
  { page with
    inputBindings := page.inputBindings ++ (inputBinding.findAll () visible).map Text.trim
    buttonActions := page.buttonActions ++ (buttonAction.findAll () visible).map Text.trim }

def readBlocks (page : Page) (visible : Text) : Page :=
  let found := ((openTag "<apex:pageBlock").findAll () visible).map fun inside =>
    let attributes := attributesIn inside
    (⟨attributes.get? "title".toList, attributes.get? "id".toList, []⟩ : PageBlock)
  { page with blocks := page.blocks ++ found }

def readActionSupports (page : Page) (visible : Text) : Page :=
  let found := ((openTag "<apex:actionSupport").findAll () visible).map fun inside =>
    let attributes := attributesIn inside
    (⟨attributes.get? "event".toList, attributes.get? "reRender".toList,
      attributes.get? "action".toList, attributes.get? "status".toList⟩ : ActionSupport)
  { page with actionSupports := page.actionSupports ++ found }

/-- The collapsed text between a panel's opening and the next closing. -/
def panelBody (opening : Hit PanelPart) : Text :=
  if !(opening.group .slash).isEmpty then []
  else
    match panelClosing.searchFrom opening.stop with
    | some closing => Text.collapse (opening.stop.spanTo closing.start).text
    | none => []

def panelOf (config : Config) (opening : Hit PanelPart) : Except LimitError OutputPanel := do
  let attributes := attributesIn (opening.group .attributes)
  let preview ←
    match nonEmpty? (panelBody opening) with
    | some body => some <$> Text.truncate? config.previewLength body
    | none => .ok none
  return ⟨attributes.get? "id".toList, attributes.get? "layout".toList, preview⟩

/-- Reads panels up to the first that fails, and tells why it does. -/
def readPanels (config : Config) : List (Hit PanelPart) → Page → Page × Option LimitError
  | [], page => (page, none)
  | opening :: rest, page =>
    match panelOf config opening with
    | .ok panel => readPanels config rest { page with outputPanels := page.outputPanels ++ [panel] }
    | .error error => (page, some error)

def documentContext : Text := "document".toList

/-- The steps of a recovery. -/
inductive Step where
  | settings
  | components
  | bindings
  | blocks
  | actionSupports
  | outputPanels
  | expressions
deriving DecidableEq, Repr

def Step.name : Step → Text
  | settings => "_extract_page_attributes".toList
  | components => "_extract_components".toList
  | bindings => "_extract_bindings".toList
  | blocks => "_extract_page_blocks".toList
  | actionSupports => "_extract_action_supports".toList
  | outputPanels => "_extract_output_panels".toList
  | expressions => "_extract_expressions".toList

/-- The steps of a full recovery in their order. -/
def Step.all : List Step :=
  [settings, components, bindings, blocks, actionSupports, outputPanels, expressions]

/-- The steps for markup that is too large. -/
def Step.light : List Step := [settings, components, expressions]

def Step.ofName? (name : Text) : Option Step := all.find? (·.name == name)

/-- The page after a step, and why the step failed if it did. -/
def Step.run (config : Config) (text : Text) (step : Step) (page : Page) :
    Page × Option LimitError :=
  match step with
  | settings => (readSettings page (visible config text), none)
  | components => (readComponents config page (visible config text), none)
  | bindings => (readBindings page (visible config text), none)
  | blocks => (readBlocks page (visible config text), none)
  | actionSupports => (readActionSupports page (visible config text), none)
  | outputPanels => readPanels config (panelOpening.hits (visible config text)) page
  | expressions => (collect page text documentContext, none)

def failureWarning (step : Step) (error : LimitError) : Text :=
  step.name ++ " failed: ".toList ++ error.message

def runStep (config : Config) (text : Text) (page : Page) (step : Step) : Page :=
  match step.run config text page with
  | (page, none) => page
  | (page, some error) => page.warn (failureWarning step error)

def runSteps (config : Config) (text : Text) (steps : List Step) (page : Page) : Page :=
  steps.foldl (runStep config text) page

def recover (config : Config) (text : Text) : Page :=
  runSteps config text Step.all (Page.empty .fallback)

def recoverLight (config : Config) (text : Text) : Page :=
  runSteps config text Step.light (Page.empty .lightweight)

end Visualforce.Page
