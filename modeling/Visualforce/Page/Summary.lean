import Visualforce.Apex.Class
import Visualforce.Page.Model

/-! # Summaries

The summary of a page for its documentation, with the members of its controller when they are known.
-/
namespace Visualforce.Page

def unknownController : Text := "UnknownController".toList

def controllerName (page : Page) : Text :=
  ((page.customController.bind nonEmpty?).or (page.controller.bind nonEmpty?)).getD
    unknownController

def summaryOfProperty (property : Apex.Property) : Value :=
  .record [("name", .text property.name), ("type", .text property.type),
    ("description", .text property.description)]

def summaryOfMethod (method : Apex.Method) : Value :=
  .record [("name", .text method.name), ("type", .text method.returnType),
    ("parameters", .text method.parameters), ("description", .text method.description)]

def summaryOfBlock (block : PageBlock) : Value :=
  .record [("title", .text (block.title.getD [])),
    ("items", .ofTexts (block.components.map (·.qualifiedName)))]

def summary (page : Page) (name : Text) (class? : Option Apex.Class) : Value :=
  .record [
    ("name", .text name),
    ("controller", .text page.controllerName),
    ("standard_controller", .ofText? page.controller),
    ("custom_controller", .ofText? page.customController),
    ("extensions", .ofTexts page.extensions),
    ("api_version", .ofText? page.apiVersion),
    ("label", .ofText? page.label),
    ("properties", .list ((class?.map (·.properties)).getD [] |>.map summaryOfProperty)),
    ("methods", .list ((class?.map (·.methods)).getD [] |>.map summaryOfMethod)),
    ("page_structure", .record [
      ("forms", .int page.formCount),
      ("inputs", .ofTexts page.inputBindings),
      ("buttons", .ofTexts page.buttonActions)]),
    ("page_blocks", .list (page.blocks.map summaryOfBlock)),
    ("action_supports", .list (page.actionSupports.map (·.toValue))),
    ("output_panels", .list (page.outputPanels.map (·.toValue))),
    ("scripts", .list (page.scripts.map (·.toValue))),
    ("template_fragments", .ofTexts page.templateFragments),
    ("dependencies", .record [
      ("objects", .ofTexts page.entities),
      ("detailed_fields", .ofTexts page.entityFields),
      ("components", .ofTexts page.customComponents)])]

end Visualforce.Page
