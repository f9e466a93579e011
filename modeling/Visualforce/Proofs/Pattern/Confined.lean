import Visualforce.Proofs.Pattern.Related

/-! # Patterns that keep in front of a character

A pattern none of whose parts accepts a certain character does not get past the first one ahead. So
it makes no difference to its runs what stands behind that character, and patterns without guards do
not ask for the character before the place either.
-/
namespace Visualforce.Pattern
open Cursor

variable {κ : Type} {stop : Char} {rest rest' : Text} {here there next next' : Place κ}
variable {goOn goOn' : Place κ → Option (Place κ)} {related : Place κ → Place κ → Prop}

/-- No part of the pattern accepts the character, and none looks around. -/
def KeepsBefore (stop : Char) : Pattern κ → Prop
  | .empty => True
  | .one accepts => accepts stop = false
  | .seq first second | .alt first second => KeepsBefore stop first ∧ KeepsBefore stop second
  | .many _ item => KeepsBefore stop item
  | .group _ body => KeepsBefore stop body
  | .sweep _ | .guard _ => False

instance KeepsBefore.decidable (stop : Char) : (pattern : Pattern κ) →
    Decidable (KeepsBefore stop pattern)
  | .empty => .isTrue trivial
  | .one accepts => inferInstanceAs (Decidable (accepts stop = false))
  | .seq first second | .alt first second =>
    @instDecidableAnd _ _ (decidable stop first) (decidable stop second)
  | .many _ item => decidable stop item
  | .group _ body => decidable stop body
  | .sweep _ | .guard _ => .isFalse id

/-- The same groups have taken part, and they have matched the same texts. -/
def SameGroups (groups groups' : List (κ × Span)) : Prop :=
  List.Forall₂ (fun first second => first.1 = second.1 ∧ first.2.text = second.2.text)
    groups groups'

theorem SameGroups.lookup [BEq κ] {groups groups' : List (κ × Span)} (h : SameGroups groups groups')
    (key : κ) :
    (groups.lookup key).map Span.text = (groups'.lookup key).map Span.text := by
  induction h with
  | nil => rfl
  | @cons first second _ _ hfirst _ ih =>
    obtain ⟨name, span⟩ := first
    obtain ⟨name', span'⟩ := second
    obtain ⟨rfl, hspan⟩ : name = name' ∧ span.text = span'.text := hfirst
    rw [List.lookup_cons, List.lookup_cons]
    cases key == name with
    | true => exact congrArg some hspan
    | false => exact ih

/-- Two places have the same text in front of the character, and behind it `rest` or `rest'`. -/
structure Alike (stop : Char) (rest rest' : Text) (here there : Place κ) : Prop where
  ahead : ∃ text, stop ∉ text ∧ here.cursor.rest = text ++ stop :: rest ∧ there.cursor.rest =
    text ++ stop :: rest'
  groups : SameGroups here.groups there.groups

theorem Alike.left_lt_iff (hhere : Alike stop rest rest' here there)
    (hnext : Alike stop rest rest' next next') :
    next.cursor.left < here.cursor.left ↔ next'.cursor.left < there.cursor.left := by
  obtain ⟨text, -, hrest, hrest'⟩ := hhere.ahead
  obtain ⟨more, -, hmore, hmore'⟩ := hnext.ahead
  simp only [Cursor.left_eq, hrest, hrest', hmore, hmore', List.length_append, List.length_cons]
  omega

theorem eq_place {text : Text} (h : here.cursor.rest = text) :
    here = ⟨between here.cursor.before text, here.groups⟩ := by
  rw [← h, ← eq_between]

/-- What lies between alike places is the same text. -/
theorem Alike.spanTo_text (hhere : Alike stop rest rest' here there)
    (hnext : Alike stop rest rest' next next') :
    (here.cursor.spanTo next.cursor).text = (there.cursor.spanTo next'.cursor).text := by
  obtain ⟨text, -, hrest, hrest'⟩ := hhere.ahead
  obtain ⟨more, -, hmore, hmore'⟩ := hnext.ahead
  simp only [spanTo, Span.text, Cursor.left_eq, hrest, hrest', hmore, hmore', List.length_append,
    List.length_cons]
  rw [List.take_append_of_le_length (by omega), List.take_append_of_le_length (by omega)]
  congr 1
  omega

theorem isStepwise_alike : IsStepwise (Alike stop rest rest' : Place κ → Place κ → Prop) where
  left_lt_iff := Alike.left_lt_iff
  group _ hhere hnext := ⟨hnext.ahead, .cons ⟨rfl, hhere.spanTo_text hnext⟩ hnext.groups⟩

theorem KeepsBefore.respects {pattern : Pattern κ} (h : KeepsBefore stop pattern) :
    Respects (Alike stop rest rest') pattern := by
  induction pattern with
  | empty => trivial
  | one accepts =>
    rintro here there ⟨⟨text, hstop, hrest, hrest'⟩, hgroups⟩
    rw [eq_place hrest, eq_place hrest']
    cases text with
    | nil =>
      have hrefused : accepts stop = false := h
      simp only [List.nil_append, run_one_cons, hrefused, Bool.false_eq_true, if_false]
      exact .none
    | cons c text =>
      simp only [List.cons_append, run_one_cons]
      split_ifs
      · exact .some ⟨⟨text, List.not_mem_of_not_mem_cons hstop, rfl, rfl⟩, hgroups⟩
      · exact .none
  | seq first second ihfirst ihsecond => exact ⟨ihfirst h.1, ihsecond h.2⟩
  | alt first second ihfirst ihsecond => exact ⟨ihfirst h.1, ihsecond h.2⟩
  | many greedy item ih => exact ih h
  | group key body ih => exact ih h
  | sweep accepts => exact h.elim
  | guard holds => exact h.elim

theorem KeepsBefore.rel_run {pattern : Pattern κ} (h : KeepsBefore stop pattern)
    (hhere : Alike stop rest rest' here there)
    (hgo : ∀ {place place' : Place κ}, Alike stop rest rest' place place' →
      Option.Rel related (goOn place) (goOn' place')) :
    Option.Rel related (pattern.run here goOn) (pattern.run there goOn') :=
  h.respects.rel_run isStepwise_alike hhere hgo

end Visualforce.Pattern
