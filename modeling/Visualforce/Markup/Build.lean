import Visualforce.Markup.Namespace
import Visualforce.Xml.Document

/-! # Building markup trees

Raw markup is prepared, read as a document and turned into a tree. The root of the tree has to be a
page element.
-/
namespace Visualforce.Markup

def withoutMarks (text : Text) : Text := text.dropWhile fun c => c.toNat == 0xFEFF

/-- Markup in the form in which it is read as a document. -/
def prepare (config : Config) (text : Text) : Text :=
  declareQualifiers (normalizeOutsideSections config.allowBooleanAttributes
    (wrapOpaque config.opaqueTags (Text.trim (withoutMarks text))))

/-- Why markup gives no tree. A malformed document comes with its prepared text. -/
inductive BuildError where
  | malformed (fault : Xml.Fault) (prepared : Text)
  | tooDeep
  | missingRoot (tag : Text) (expected : List Text)

def BuildError.message : BuildError → Text
  | malformed fault prepared => "Markup is not well-formed: ".toList ++ fault.message prepared
  | tooDeep => "Markup nesting is too deep to build a tree".toList
  | missingRoot tag expected =>
    "Root element <".toList ++ tag ++ "> is not one of: ".toList ++
      Text.joinWith ", ".toList expected

/-- The depth down to which trees are built, which stands for the stack of the reader. Walks over a
tree have no limit of their own: one that takes more of the stack for each level gives up earlier
than any does here. -/
def depthLimit : Nat := 1000

/-- How expanded names and values become those of the tree. -/
structure Conversion where
  declared : List (Text × Text)
  trimValues : Bool

namespace Conversion

def clean (conversion : Conversion) (value : Text) : Text :=
  if conversion.trimValues then Text.trim value else value

def head (conversion : Conversion) (name : Xml.Name) (attributes : List (Xml.Name × Text)) :
    Head where
  tag := qualify conversion.declared name
  attributes := attributes.map fun (name, value) =>
    ⟨qualify conversion.declared name, conversion.clean value⟩

mutual
/-- A blank run of text leaves no node. -/
def nodes (conversion : Conversion) : List Xml.Node → List Node
  | [] => []
  | node :: rest => conversion.node node ++ conversion.nodes rest

def node (conversion : Conversion) : Xml.Node → List Node
  | .text content =>
    if Text.isBlankText content then [] else [.text (conversion.clean content)]
  | .element name attributes children =>
    [.element (conversion.head name attributes) (conversion.nodes children)]
end

def element (conversion : Conversion) (root : Xml.Element) : Element :=
  ⟨conversion.head root.name root.attributes, conversion.nodes root.children⟩

end Conversion

def build (config : Config) (text : Text) : Except BuildError Element :=
  let prepared := prepare config text
  match Xml.read prepared with
  | .error fault => .error (.malformed fault prepared)
  | .ok root =>
    if depthLimit < root.depth then .error .tooDeep
    else
      let tree := (Conversion.mk (declarations prepared) config.trimValues).element root
      if config.rootTags.contains tree.head.tag then .ok tree
      else .error (.missingRoot tree.head.tag config.rootTags)

end Visualforce.Markup
