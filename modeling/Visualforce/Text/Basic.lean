/-! # Text as a list of characters

Lengths, offsets and limits count characters, which are the scalar values of Unicode: no text holds
half of a surrogate pair. Splitting keeps the empty pieces; searching is for a fixed piece of text.
-/
namespace Visualforce

abbrev Text := List Char

namespace Text

/-- What holds of every character of a text is settled along the text. -/
instance (priority := 2000) decidableForallMem {text : Text} {property : Char → Prop}
    [DecidablePred property] : Decidable (∀ c ∈ text, property c) :=
  List.decidableBAll property text

/-- The pieces between the characters that satisfy `isBreak`, empty ones included. -/
def splitWhere (isBreak : Char → Bool) (text : Text) : List Text :=
  text.foldr (fun c pieces =>
    if isBreak c then [] :: pieces
    else match pieces with
      | [] => [[c]]
      | piece :: others => (c :: piece) :: others) [[]]

/-- The parts before and after the first character that satisfies `isBreak`; none without one. -/
def cutAt? (isBreak : Char → Bool) (text : Text) : Option (Text × Text) :=
  match text.dropWhile (!isBreak ·) with
  | [] => none
  | _ :: after => some (text.takeWhile (!isBreak ·), after)

/-- Whether `piece` occurs anywhere in the text. -/
def has (piece : Text) : Text → Bool
  | [] => piece.isEmpty
  | c :: rest => piece.isPrefixOf (c :: rest) || has piece rest

def joinWith (separator : Text) (pieces : List Text) : Text :=
  (pieces.intersperse separator).flatten

/-- What holds of the characters of a literal holds of its text, which takes long to evaluate. -/
theorem of_characters (P : Text → Prop) {characters : List Char} (h : P characters) :
    P (String.ofList characters).toList := by
  rwa [String.toList_ofList]

end Text

/-- Keeps the first occurrence of each value. -/
def dedupe {α : Type} [BEq α] (values : List α) : List α :=
  (values.foldl (fun kept v => if kept.contains v then kept else v :: kept) []).reverse

def nonEmpty? : Text → Option Text
  | [] => none
  | text => some text

end Visualforce
