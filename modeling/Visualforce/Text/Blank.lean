import Visualforce.Text.Basic

/-! # Blank characters

The white space of Unicode, the information separators included. Trimming, splitting into words and
collapsing all use this one set; lines end at a set of their own.
-/
namespace Visualforce.Text

def isBlank (c : Char) : Bool :=
  let n := c.toNat
  (0x09 ≤ n && n ≤ 0x0D) || (0x1C ≤ n && n ≤ 0x20) || n == 0x85 || n == 0xA0 || n == 0x1680 ||
    (0x2000 ≤ n && n ≤ 0x200A) || n == 0x2028 || n == 0x2029 || n == 0x202F || n == 0x205F ||
    n == 0x3000

def isLineBreak (c : Char) : Bool :=
  let n := c.toNat
  (0x0A ≤ n && n ≤ 0x0D) || (0x1C ≤ n && n ≤ 0x1E) || n == 0x85 || n == 0x2028 || n == 0x2029

def trimStart (text : Text) : Text := text.dropWhile isBlank

def trimEnd (text : Text) : Text := (text.reverse.dropWhile isBlank).reverse

def trim (text : Text) : Text := trimEnd (trimStart text)

def isBlankText (text : Text) : Bool := text.all isBlank

/-- The maximal runs of characters that are not blank. -/
def words (text : Text) : List Text := (splitWhere isBlank text).filter (!·.isEmpty)

/-- Every run of blanks becomes one space, and none stays at either end. -/
def collapse (text : Text) : Text := joinWith [' '] (words text)

/-- The lines that hold more than blanks, trimmed. -/
def filledLines (text : Text) : List Text :=
  ((splitWhere isLineBreak text).map trim).filter (!·.isEmpty)

end Visualforce.Text
