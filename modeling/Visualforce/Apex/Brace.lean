import Visualforce.Text.Basic

/-! # Matching braces

A brace is matched by counting, where what stands in string literals and in comments does not count.
-/
namespace Visualforce.Apex

/-- What kind of text is being read. -/
inductive Region where
  | code
  | literal
  | lineComment
  | blockComment
deriving DecidableEq, Repr

/-- The place of the closing brace that brings the depth back to nought, if there is one. -/
def closingFrom : Region → Int → Nat → Text → Option Nat
  | _, _, _, [] => none
  | .code, depth, place, '/' :: '/' :: rest => closingFrom .lineComment depth (place + 2) rest
  | .code, depth, place, '/' :: '*' :: rest => closingFrom .blockComment depth (place + 2) rest
  | .code, depth, place, c :: rest =>
    if c == '\'' then closingFrom .literal depth (place + 1) rest
    else if c == '{' then closingFrom .code (depth + 1) (place + 1) rest
    else if c == '}' then
      if depth == 1 then some place else closingFrom .code (depth - 1) (place + 1) rest
    else closingFrom .code depth (place + 1) rest
  | .literal, depth, place, '\\' :: _ :: rest => closingFrom .literal depth (place + 2) rest
  | .literal, depth, place, c :: rest =>
    closingFrom (if c == '\'' then .code else .literal) depth (place + 1) rest
  | .lineComment, depth, place, c :: rest =>
    closingFrom (if c == '\n' then .code else .lineComment) depth (place + 1) rest
  | .blockComment, depth, place, '*' :: '/' :: rest => closingFrom .code depth (place + 2) rest
  | .blockComment, depth, place, _ :: rest => closingFrom .blockComment depth (place + 1) rest

/-- The place of the brace that closes the one at `place`, or the end of the text. -/
def matchingBrace (text : Text) (place : Nat) : Nat :=
  (closingFrom .code 0 place (text.drop place)).getD text.length

end Visualforce.Apex
