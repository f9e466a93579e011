import Visualforce.Page.Recovery
import Visualforce.Proofs.Markup.Written
import Visualforce.Proofs.Text.WordBlank

/-! # Characters of plain pages

The characters of an identifier belong to every class of name characters, and none of them is blank
or has a meaning in markup. Nothing in a plain value or text ends it.
-/
namespace Visualforce.Markup
open Expression (IsMarked)

theorem toNat_lt_of_isNamePart {c : Char} (h : isNamePart c) : c.toNat < 128 := by
  rw [isNamePart, Bool.or_eq_true, beq_iff_eq] at h
  rcases h with h | rfl
  · exact Text.toNat_lt_of_isAlphanum h
  · decide

/-- How a class treats the characters of identifiers is settled by looking at ASCII. -/
theorem class_of_isNamePart (accepts : Char → Bool) (b : Bool)
    (h : ∀ n : Fin 128, isNamePart (Char.ofNat n) → accepts (Char.ofNat n) = b) {c : Char}
    (hc : isNamePart c) : accepts c = b :=
  Text.forall_ascii (fun c => isNamePart c → accepts c = b) h (toNat_lt_of_isNamePart hc) hc

theorem isNamePart_of_isAlpha {c : Char} (h : c.isAlpha) : isNamePart c := by
  simp [isNamePart, Char.isAlphanum, h]

section NamePart
variable {c : Char} (h : isNamePart c)
include h

theorem isWord_of_isNamePart : Text.isWord c = true :=
  class_of_isNamePart Text.isWord true (by decide) h

theorem isBlank_of_isNamePart : Text.isBlank c = false :=
  class_of_isNamePart Text.isBlank false (by decide) h

theorem isTagNameChar_of_isNamePart : isTagNameChar c = true :=
  class_of_isNamePart isTagNameChar true (by decide) h

theorem isQualifierChar_of_isNamePart : isQualifierChar c = true :=
  class_of_isNamePart isQualifierChar true (by decide) h

theorem isComponentChar_of_isNamePart : Page.isComponentChar c = true :=
  class_of_isNamePart Page.isComponentChar true (by decide) h

theorem isNameChar_of_isNamePart : Xml.isNameChar c = true :=
  class_of_isNamePart Xml.isNameChar true (by decide) h

end NamePart
end Visualforce.Markup
