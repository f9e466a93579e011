import Visualforce.Proofs.Markup.LineEndPrepare
import Visualforce.Proofs.Xml.LineEndDocument

/-! # Trees and line ends

Markup and the markup with its line ends unified build the same tree, or neither builds one, when no
namespace that is declared in it is written with a carriage return.
-/
namespace Visualforce.Markup
open Digest

variable {config : Config} {text : Text}

/-- Nothing in the prepared markup keeps a carriage return once it is read. -/
structure IsSettled (config : Config) (text : Text) : Prop where
  tags : CalmTags config.opaqueTags
  spaces : ∀ declared ∈ declarations (prepare config text), '\r' ∉ declared.2

theorem IsSettled.prepare_unifyLineEnds (h : IsSettled config text) :
    prepare config (unifyLineEnds text) = unifyLineEnds (prepare config text) :=
  Markup.prepare_unifyLineEnds h.tags text

theorem IsSettled.declarations_unifyLineEnds (h : IsSettled config text) :
    declarations (prepare config (unifyLineEnds text)) = declarations (prepare config text) := by
  rw [h.prepare_unifyLineEnds, Markup.declarations_unifyLineEnds]
  refine (List.map_congr_left fun declared hdeclared => ?_).trans (List.map_id _)
  exact Prod.ext rfl (unifyLineEnds_eq_self_iff.mpr (h.spaces declared hdeclared))

theorem agree_build (h : IsSettled config text) :
    Agree Eq (build config text) (build config (unifyLineEnds text)) := by
  rw [build, build, h.declarations_unifyLineEnds, h.prepare_unifyLineEnds]
  have hread := Xml.agree_read (prepare config text)
  generalize Xml.read (prepare config text) = first at hread
  generalize Xml.read (unifyLineEnds (prepare config text)) = second at hread
  cases hread with
  | error fault fault' => exact .error _ _
  | ok hroot =>
    rw [hroot]
    dsimp only
    split_ifs
    · exact .error _ _
    · exact .ok rfl
    · exact .error _ _

end Visualforce.Markup
