import Visualforce.Page.Recovery

/-! # Scripts and resources

Some facts are always read from the raw markup and never from its tree: scripts and static
resources, the number of forms, remoting, and the names of template fragments.
-/
namespace Visualforce.Page
open Pattern Markup

inductive ScriptPart where
  | attributes
  | body
deriving DecidableEq

def scriptElement : Pattern ScriptPart :=
  anyCase "<script" ++ wordEdge ++ group .attributes (starLazy tagItem) ++
    alt (literal "/>")
      (char '>' ++ group .body (starLazy anyChar) ++ anyCase "</script" ++ star blank ++ char '>')

def scriptSource : Pattern Unit :=
  wordEdge ++ anyCase "src" ++ equalsSign ++ quoteMark ++ group () (plus (noneOf "\"'")) ++
    quoteMark

def includeDirective : Pattern Unit :=
  literal "<apex:" ++ alt (literal "includeScript") (literal "stylesheet") ++ wordEdge ++
    starLazy (noneOf ">") ++ wordEdge ++ literal "value" ++ equalsSign ++ quotedValue ()

def resourceName : Pattern Unit := literal "$Resource." ++ group () (plus wordChar)

def externalUrl : Pattern Unit :=
  star blank ++ group () (anyCase "http" ++ maybe (anyCase "s") ++ literal "://" ++
    plus (one (!Text.isBlank ·)))

/-- What a script element refers to: its source, or else the beginning of its body. -/
def scriptOf (limit : Option Int) (hit : Hit ScriptPart) :
    Except LimitError (Option ScriptReference) :=
  match scriptSource.search (hit.group .attributes) with
  | some source => .ok (some ⟨.externalUrl, Text.trim (source.group ())⟩)
  | none =>
    match nonEmpty? (Text.trim (hit.group .body)) with
    | some body => do return some ⟨.inlineScript, ← Text.truncate? limit body⟩
    | none => .ok none

def resourcesIn (text : Text) : List ScriptReference :=
  (resourceName.findAll () text).map fun name => ⟨.staticResource, name⟩

/-- What the value of an include directive refers to. -/
def included (value : Text) : List ScriptReference :=
  match resourcesIn value with
  | [] =>
    match externalUrl.matchAt (Cursor.start value) with
    | some url => [⟨.externalUrl, url.group ()⟩]
    | none => []
  | resources => resources

/-- Script elements, then include directives, then resources anywhere, each reference once. -/
def scriptsIn (limit : Option Int) (text : Text) : Except LimitError (List ScriptReference) := do
  let scripts ← (scriptElement.hits text).mapM (scriptOf limit)
  return dedupe (scripts.filterMap id ++ (includeDirective.findAll () text).flatMap included ++
    resourcesIn text)

def formOpening : Pattern Unit := anyCase "<apex:form" ++ wordEdge

def formsIn (text : Text) : Nat := (formOpening.hits text).length

def remotingMarks : List Text :=
  ["apex:remoteObjectModel", "apex:remoteObjects", "Visualforce.remoting"].map String.toList

def resourceMarks : List Text :=
  ["$Resource.", "apex:stylesheet", "apex:includeScript"].map String.toList

def hasRemoting (text : Text) : Bool := remotingMarks.any (Text.has · text)

def hasResources (text : Text) : Bool := resourceMarks.any (Text.has · text)

/-- A tag with a quoted attribute that is not empty. -/
def fragment (tag name : String) : Pattern Unit :=
  literal tag ++ plus blank ++ starLazy (noneOf ">") ++ wordEdge ++ literal name ++ equalsSign ++
    quoteMark ++ group () (plus (noneOf "\"'")) ++ quoteMark

def fragmentKinds : List (Pattern Unit × Text) :=
  [(fragment "<apex:composition" "template", "Template".toList),
    (fragment "<apex:insert" "name", "Insert Point".toList),
    (fragment "<apex:define" "name", "Content Definition".toList),
    (fragment "<apex:composition" "define", "Composition Definition".toList)]

/-- Labelled names of template fragments, kind by kind. -/
def fragmentsIn (text : Text) : List Text :=
  dedupe (fragmentKinds.flatMap fun (pattern, label) =>
    (pattern.findAll () text).map fun name => label ++ ": ".toList ++ name)

/-- Sets what is read from raw markup. If the scripts cannot be read, they and the fragments stay as
they were. -/
def readRaw (config : Config) (text : Text) (page : Page) : Page × Option LimitError :=
  let page := { page with
    formCount := formsIn text
    hasRemoteObjects := hasRemoting text
    hasStaticResources := hasResources text }
  match scriptsIn config.inlineScriptLength text with
  | .error error => (page, some error)
  | .ok scripts =>
    ({ page with
        scripts
        templateFragments := dedupe (page.templateFragments ++ fragmentsIn text) }, none)

end Visualforce.Page
