import Visualforce.Pattern.Scan

/-! # Documentation comments -/
namespace Visualforce.Apex
open Pattern

def docMark : Pattern Unit := alt (literal "/**") (literal "*/")

def lineStart : Pattern Unit := guard fun here => here.before.isNone || here.before == some '\n'

/-- The star that a line of a comment begins with. -/
def lineStar : Pattern Unit := lineStart ++ star blank ++ char '*' ++ maybe blank

/-- The words of a comment without its marks, its lines joined by spaces. -/
def cleanDoc (doc : Text) : Text :=
  Text.joinWith [' '] (Text.filledLines
    (lineStar.replace (fun _ => []) (docMark.replace (fun _ => []) doc)))

end Visualforce.Apex
