import Visualforce.Proofs.Markup.Assignment
import Visualforce.Proofs.Markup.AttributeMap
import Visualforce.Proofs.Page.PlainHits

/-! # Settings of plain pages

When the page tag does not give a setting, a recovery looks for an assignment of it anywhere. On a
plain page it can only find the attribute of the page tag again.
-/
namespace Visualforce.Page
open Pattern Cursor Markup
open Expression (IsMarked)

variable {tokens : List Token}

section Assignment
variable {name : String} (hname : isWordName name.toList)

theorem run_assignment (here : Place Unit) (goOn : Place Unit → Option (Place Unit)) :
    (assignment name).run here goOn =
      (wordEdge ++ exactly name.toList ++ assignedValue ()).run here goOn := rfl

include hname

theorem isAssignment_assignment : IsAssignment (assignment name) :=
  isAssignment_of_word hname (isAssigner_assignedValue ()) run_assignment

theorem yields_assignment {attr : Attribute} (hattr : isWordName attr.name)
    (hvalue : IsMarked isPlainValueChar attr.value) :
    Yields (assignment name) (seen (·.group ())) AvoidsEquals attr.source
      (if attr.name = name.toList then [attr.value] else []) := by
  have hassignment := isAssignment_assignment hname
  split_ifs with heq
  · apply hassignment.yields_of_hit (beginsName_of_isWordName hattr)
    intro rest
    obtain ⟨span, htext, hrun⟩ := run_assignedValue () (behind (some ' ') name.toList) rest []
      (hvalue.not_mem (by decide) (by decide)) (hvalue.not_mem (by decide) (by decide))
    refine ⟨⟨between (some ' ') (attr.name ++ (attr.assigned ++ rest)), between (some '"') rest,
      [((), span)]⟩, ?_, rfl, htext⟩
    have hassigned : attr.assigned ++ rest = '=' :: '"' :: (attr.value ++ '"' :: rest) := by
      simp [Attribute.assigned]
    rw [matchAt, heq, hassigned, run_word_of_name hname run_assignment, hrun]
    rfl
  · apply hassignment.yields_of_miss hattr (hvalue.not_mem (by decide) (by decide))
    intro rest
    refine matchAt_word_of_ne hname (isAssigner_assignedValue ()) run_assignment hattr heq ?_
    rintro c ⟨⟩
    decide

theorem search_assignment (h : ∀ token ∈ tokens, token.IsPlain) :
    ((assignment name).search (sourceOf tokens)).map (·.group ()) =
      (((headsOf tokens).flatMap (·.attributes)).find? (·.name == name.toList)).map (·.value) := by
  have hassignment := isAssignment_assignment hname
  have hyields := Yields.flatMap fun token htoken =>
    hassignment.yields_token (h token htoken).isOrdinary fun attr hattr _ hvalue =>
      yields_assignment hname hattr hvalue
  have hlast : ∀ before, (assignment name).matchAt (between before []) = none := by
    intro before
    exact hassignment.equals before [] (by decide)
  refine (hyields.search avoidsEquals_nil hlast).trans ?_
  rw [flatMap_assignedAt]
  induction (headsOf tokens).flatMap (·.attributes) with
  | nil => rfl
  | cons attr attributes ih =>
    rw [List.flatMap_cons, List.find?_cons]
    by_cases heq : attr.name = name.toList
    · rw [if_pos heq, heq, beq_self_eq_true]
      rfl
    · rw [if_neg heq, beq_false_of_ne heq, List.nil_append]
      exact ih

end Assignment

/-- A setting of a plain page is the attribute of its root. -/
theorem setting?_of_plain {head : Head} {closes : Bool} {rest : List Token} {name : String}
    (hname : isIdentifier name.toList) (hlisted : name.toList ∈ controllerNames)
    (hhead : head.IsPlain)
    (hrest : ∀ token ∈ rest, token.IsPlain ∧ token.IsInner) :
    setting? head.attributeMap name (sourceOf (.opening head closes :: rest)) =
      present? (head.get? name.toList) := by
  have hplain : ∀ token ∈ Token.opening head closes :: rest, token.IsPlain :=
    List.forall_mem_cons.mpr ⟨hhead, fun token htoken => (hrest token htoken).1⟩
  have hinner : ((headsOf rest).flatMap (·.attributes)).find? (·.name == name.toList) = none := by
    rw [List.find?_eq_none]
    intro attr hattr heq
    obtain ⟨inner, hmem, hattr⟩ := List.mem_flatMap.mp hattr
    obtain ⟨token, htoken, htok⟩ := List.mem_filterMap.mp hmem
    cases token with
    | text content => cases htok
    | closing tag => cases htok
    | opening _ closes =>
      cases htok
      rw [beq_iff_eq] at heq
      exact (hrest _ htoken).2.names attr hattr (heq ▸ hlisted)
  have hsearch : ((assignment name).search (sourceOf (.opening head closes :: rest))).map
    (·.group ()) =
      head.get? name.toList := by
    rw [search_assignment (isWordName_of_isIdentifier hname) hplain, headsOf_opening,
      List.flatMap_cons, List.find?_append, hinner, Option.or_none, Head.get?]
  rw [setting?, hsearch, Head.get?_attributeMap hhead.distinct, Option.or_self]

end Visualforce.Page
