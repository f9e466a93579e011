import Visualforce.Digest.Content
import Visualforce.Markup.Build
import Visualforce.Page.Dependencies
import Visualforce.Page.Metadata
import Visualforce.Page.Resources

/-! # Extracting the model of a page

Markup within the size threshold is read by its tree; when that fails it is recovered from patterns,
and oversized markup takes a shorter recovery at once. Every page then passes through the same final
steps. Extraction never fails: what goes wrong becomes a warning.
-/
namespace Visualforce.Page

inductive Strategy where
  | byTree
  | light
deriving DecidableEq, Repr

def Strategy.select (config : Config) (text : Text) : Strategy :=
  if config.isOversize text then .light else .byTree

/-- Why a page cannot be read by its tree. -/
inductive TreeError where
  | build (error : Markup.BuildError)
  | traversal (error : LimitError)

def TreeError.message : TreeError → Text
  | build error => error.message
  | traversal error => error.message

def TreeError.warning : TreeError → Text
  | build error => "Tree extraction failed: ".toList ++ error.message
  | traversal error => "Tree traversal failed: ".toList ++ error.message

def readTree (config : Config) (text : Text) : Except TreeError Page :=
  match Markup.build config text with
  | .error error => .error (.build error)
  | .ok root =>
    match Page.ofTree config root with
    | .error error => .error (.traversal error)
    | .ok page => .ok page

/-- Each value once in the fields that hold sets. -/
def dedupeSets (page : Page) : Page :=
  { page with
    templateFragments := dedupe page.templateFragments
    inputBindings := dedupe page.inputBindings
    buttonActions := dedupe page.buttonActions
    customComponents := dedupe page.customComponents
    entities := dedupe page.entities
    entityFields := dedupe page.entityFields }

def rankExpressions (page : Page) : Page :=
  { page with expressions := Expression.rankAll page.expressions }

def readRawOrWarn (config : Config) (text : Text) (page : Page) : Page :=
  match readRaw config text page with
  | (page, none) => page
  | (page, some error) => page.warn ("Raw text passes failed: ".toList ++ error.message)

/-- The steps that every page passes through at the end. -/
def finish (config : Config) (text : Text) (page : Page) : Page :=
  addDependencies (dedupeSets (rankExpressions (readRawOrWarn config text page)))

def readWith (config : Config) (text : Text) : Page :=
  match Strategy.select config text with
  | .light => recoverLight config text
  | .byTree =>
    match readTree config text with
    | .ok page => page
    | .error error =>
      let page := recover config text
      { page with warnings := error.warning :: page.warnings }

/-- The model of a page, with gaps filled from metadata when there is any. -/
def parse (config : Config) (text : Text) (metadata : Option Text) : Page :=
  let page := finish config text (readWith config text)
  match metadata.bind nonEmpty? with
  | some metadata => applyMetadata metadata page
  | none => page

/-- The digest of what was extracted. -/
def digest (page : Page) : Text := Digest.ofValue page.toValue

end Visualforce.Page
