import Visualforce.Markup.Spelling
import Visualforce.Config

/-! # Opaque elements and visible markup

The body of an opaque element is code, not markup. It is either wrapped in a section, so that a
reader of markup takes it verbatim, or left out altogether.
-/
namespace Visualforce.Markup
open Pattern

inductive OpaquePart where
  | opening
  | body
  | closing
deriving DecidableEq

/-- A start tag of one of the names that does not close itself. -/
def opaqueOpening (name : Pattern OpaquePart) : Pattern OpaquePart :=
  char '<' ++ name ++ wordEdge ++ starLazy tagItem ++ guard (fun here => here.before != some '/') ++
    char '>'

def opaqueElement (name : Pattern OpaquePart) : Pattern OpaquePart :=
  group .opening (opaqueOpening name) ++ group .body (starLazy anyChar) ++
    group .closing (literal "</" ++ name ++ star blank ++ char '>')

def sectionOpening : Text := "<![CDATA[".toList

def sectionClosing : Text := "]]>".toList

/-- Closes and reopens the section around each closing mark inside it. -/
def splitClosings (body : Text) : Text :=
  (literal "]]>" : Pattern Unit).replace
    (fun _ => "]]]]>".toList ++ sectionOpening ++ ['>']) body

def wrapBody (hit : Hit OpaquePart) : Text :=
  let body := hit.group .body
  if Text.isBlankText body then hit.text
  else hit.group .opening ++ sectionOpening ++ splitClosings body ++ sectionClosing ++
    hit.group .closing

/-- Wraps the bodies of all opaque elements, one tag after the other. -/
def wrapOpaque (tags : List Text) (text : Text) : Text :=
  tags.foldl (fun text tag => (opaqueElement (caseless tag)).replace wrapBody text) text

def commentPattern : Pattern Unit := literal "<!--" ++ starLazy anyChar ++ literal "-->"

/-- Markup without comments and without the bodies of opaque elements. -/
def visible (config : Config) (text : Text) : Text :=
  let text := commentPattern.replace (fun _ => []) text
  (opaqueElement (firstOf (config.opaqueTags.map caseless))).replace
    (fun hit => hit.group .opening ++ hit.group .closing) text

end Visualforce.Markup
