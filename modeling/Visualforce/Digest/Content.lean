import Visualforce.Digest.Sha512
import Visualforce.Data.Canonical

/-! # Digests of content

Markup has the same digest whichever way its lines end, and a value whichever way its fields are
ordered and whatever its volatile fields hold.
-/
namespace Visualforce.Digest

/-- Every carriage return, alone or before a line feed, becomes one line feed. -/
@[simp] def unifyLineEnds : Text → Text
  | [] => []
  | '\r' :: '\n' :: rest => '\n' :: unifyLineEnds rest
  | '\r' :: rest => '\n' :: unifyLineEnds rest
  | c :: rest => c :: unifyLineEnds rest

def ofMarkup (text : Text) : Text := ofText (unifyLineEnds text)

def digestedText (value : Value) : Text := value.normalize.canonicalText

def ofValue (value : Value) : Text := ofText (digestedText value)

end Visualforce.Digest
