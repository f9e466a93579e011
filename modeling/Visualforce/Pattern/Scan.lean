import Visualforce.Pattern.Basic

/-! # Searching a text for a pattern

A scan goes from left to right and takes the first match at each place; after a match it goes on at
its end. A match of no character is passed over.
-/
namespace Visualforce.Pattern

variable {κ : Type}

/-- A match of a pattern in a text. -/
structure Hit (κ : Type) where
  start : Cursor
  stop : Cursor
  groups : List (κ × Span)

namespace Hit

def text (hit : Hit κ) : Text := (hit.start.spanTo hit.stop).text

/-- What the group matched last, none if it took no part. -/
def group? [BEq κ] (hit : Hit κ) (key : κ) : Option Text := (hit.groups.lookup key).map Span.text

def group [BEq κ] (hit : Hit κ) (key : κ) : Text := (hit.group? key).getD []

end Hit

def matchAt (pattern : Pattern κ) (here : Cursor) : Option (Hit κ) :=
  (pattern.run ⟨here, []⟩ some).map fun last => ⟨here, last.cursor, last.groups⟩

def searchWithin (pattern : Pattern κ) : Nat → Cursor → Option (Hit κ)
  | 0, here => pattern.matchAt here
  | n + 1, here =>
    match pattern.matchAt here with
    | some hit => some hit
    | none =>
      match here.next? with
      | some (_, next) => searchWithin pattern n next
      | none => none

/-- The first match at or after `here`. -/
def searchFrom (pattern : Pattern κ) (here : Cursor) : Option (Hit κ) :=
  pattern.searchWithin here.left here

def search (pattern : Pattern κ) (text : Text) : Option (Hit κ) :=
  pattern.searchFrom (Cursor.start text)

def occursIn (pattern : Pattern κ) (text : Text) : Bool := (pattern.search text).isSome

/-- A text as a scan leaves it: single characters between matches. -/
inductive Piece (κ : Type) where
  | plain (c : Char)
  | matched (hit : Hit κ)

def piecesFrom (pattern : Pattern κ) : Nat → Cursor → List (Piece κ) → List (Piece κ)
  | 0, _, found => found.reverse
  | n + 1, here, found =>
    match here.next? with
    | none => found.reverse
    | some (c, next) =>
      match pattern.matchAt here with
      | some hit =>
        if hit.stop.left < here.left then piecesFrom pattern n hit.stop (.matched hit :: found)
        else piecesFrom pattern n next (.plain c :: found)
      | none => piecesFrom pattern n next (.plain c :: found)

def pieces (pattern : Pattern κ) (text : Text) : List (Piece κ) :=
  pattern.piecesFrom text.length (Cursor.start text) []

def Piece.hit? : Piece κ → Option (Hit κ)
  | .plain _ => none
  | .matched hit => some hit

def hits (pattern : Pattern κ) (text : Text) : List (Hit κ) :=
  (pattern.pieces text).filterMap Piece.hit?

def findAll [BEq κ] (pattern : Pattern κ) (key : κ) (text : Text) : List Text :=
  (pattern.hits text).map (·.group key)

def replace (pattern : Pattern κ) (write : Hit κ → Text) (text : Text) : Text :=
  (pattern.pieces text).flatMap fun
    | .plain c => [c]
    | .matched hit => write hit

end Visualforce.Pattern
