import Visualforce.Text.Basic

/-! # Cutting a text to a limit

A negative limit counts from the end of the text. An unset limit is an error as soon as a text has
to be measured against it.
-/
namespace Visualforce

inductive LimitError where
  | unset
deriving DecidableEq, Repr

def LimitError.message : LimitError → Text
  | .unset => "'<=' not supported between instances of 'int' and 'NoneType'".toList

namespace Text

/-- The first `limit` characters, or all but the last `-limit`. -/
def upTo (limit : Int) (text : Text) : Text :=
  if 0 ≤ limit then text.take limit.toNat else text.take (text.length - (-limit).toNat)

def ellipsis : Text := "...".toList

/-- The text itself when it fits, else its beginning with `marker` appended. -/
def truncate (limit : Int) (marker text : Text) : Text :=
  if (text.length : Int) ≤ limit then text else upTo limit text ++ marker

def truncate? (limit : Option Int) (text : Text) : Except LimitError Text :=
  match limit with
  | none => .error .unset
  | some limit => .ok (truncate limit ellipsis text)

end Text
end Visualforce
