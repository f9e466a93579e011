import Visualforce.Page.Model

/-! # How often components are used -/
namespace Visualforce.Page

/-- Qualified names in order of first use with the number of their uses. -/
def componentCounts (page : Page) : List (Text × Nat) :=
  let names := page.components.map (·.qualifiedName)
  (dedupe names).map fun name => (name, names.count name)

def usesOf (page : Page) (usage : ComponentUsage) : Nat :=
  (page.components.map (·.qualifiedName)).count usage.qualifiedName

/-- Components by falling number of uses; equal numbers keep the order of the document. -/
def componentsByFrequency (page : Page) : List ComponentUsage :=
  page.components.mergeSort fun a b => page.usesOf b ≤ page.usesOf a

end Visualforce.Page
