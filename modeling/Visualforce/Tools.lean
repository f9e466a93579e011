import Visualforce.Apex.Reader
import Visualforce.Page.Extract
import Visualforce.Page.Summary

/-! # Tools

The three questions that a client may ask, answered by values. An answer that is too long to hand
out is replaced by a notice.
-/
namespace Visualforce.Tools

/-- Digits with a comma between groups of three. -/
def grouped (n : Nat) : Text :=
  inGroups (n.repr.toList.reverse)
where
  inGroups : Text → Text
    | a :: b :: c :: d :: rest => inGroups (d :: rest) ++ [',', c, b, a]
    | digits => digits.reverse

def notice (length : Nat) : Value :=
  .record [("_truncated", .bool true),
    ("_message", .text ("Response too large (".toList ++ grouped length ++
      " chars). Use summarize_visualforce_page instead.".toList))]

/-- The value itself, unless its text has more than `limit` characters. -/
def limited (limit : Int) (value : Value) : Value :=
  let length := (value.write .spaced).length
  if (length : Int) ≤ limit then value else notice length

def answerLimit : Int := 80000

def addField (name : String) (added : Value) : Value → Value
  | .object fields => .object (fields ++ [(name.toList, added)])
  | value => value

def parsePage (markup : Text) (sizeThreshold : Option Int) : Value :=
  let config :=
    match sizeThreshold with
    | some n => { Config.standard with sizeThreshold := n }
    | none => Config.standard
  let page := Page.parse config markup none
  limited answerLimit (addField "content_hash" (.text page.digest) page.toValue)

/-- The class is named by its own declaration, or else by the given name, the page's controllers or
the page. -/
def summarizePage (name markup : Text) (source className : Option Text) : Value :=
  let page := Page.parse Config.standard markup none
  let class? := (source.bind nonEmpty?).map fun source =>
    Apex.read source ((((className.bind nonEmpty?).or (page.customController.bind nonEmpty?)).or
      (page.controller.bind nonEmpty?)).getD name)
  limited answerLimit (page.summary name class?)

def readClass (source className : Text) : Value :=
  limited answerLimit (Apex.read source className).toValue

end Visualforce.Tools
