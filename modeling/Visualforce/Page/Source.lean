import Visualforce.Page.Extract
import Visualforce.Text.Utf8

/-! # Sources of pages

Markup comes as text, as bytes or not at all; any other value stands for its printed form. Bytes
that are no text are replaced, so every source has a text.
-/
namespace Visualforce.Page

inductive Source where
  | missing
  | text (content : Text)
  | bytes (content : List UInt8)
  | flag (b : Bool)
  | number (n : Int)
deriving DecidableEq, Repr

def Source.toText : Source → Text
  | missing => []
  | text content => content
  | bytes content => Text.decode content
  | flag true => "True".toList
  | flag false => "False".toList
  | number n => n.repr.toList

/-- The model of the page that a source holds. -/
def ofSource (config : Config) (source : Source) (metadata : Option Text) : Page :=
  parse config source.toText metadata

end Visualforce.Page
