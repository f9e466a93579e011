import Mathlib.Data.List.Forall2
import Visualforce.Proofs.Pattern.Leads

/-! # Runs side by side

Two runs of a pattern from related places go the same way when the parts of the pattern do not tell
related places apart: they go on at related places. So whether a run succeeds does not depend on the
groups that are closed already.
-/
namespace Visualforce.Pattern
open Cursor

variable {κ : Type} {related : Place κ → Place κ → Prop} {results : Place κ → Place κ → Prop}
variable {here there next next' : Place κ} {n : Nat} {pattern : Pattern κ}
variable {step step' goOn goOn' : Place κ → Option (Place κ)}

/-- Related places are equally far from other related places, and with a group closed they are still
related. -/
structure IsStepwise (related : Place κ → Place κ → Prop) : Prop where
  left_lt_iff : ∀ {here there next next' : Place κ}, related here there → related next next' →
    (next.cursor.left < here.cursor.left ↔ next'.cursor.left < there.cursor.left)
  group : ∀ {here there next next' : Place κ} (key : κ), related here there → related next next' →
    related ⟨next.cursor, (key, here.cursor.spanTo next.cursor) :: next.groups⟩
      ⟨next'.cursor, (key, there.cursor.spanTo next'.cursor) :: next'.groups⟩

/-- No part of the pattern tells related places apart. -/
def Respects (related : Place κ → Place κ → Prop) : Pattern κ → Prop
  | .empty => True
  | .one accepts => ∀ here there, related here there →
      Option.Rel related ((one accepts).run here some) ((one accepts).run there some)
  | .seq first second | .alt first second => Respects related first ∧ Respects related second
  | .many _ item => Respects related item
  | .sweep accepts => ∀ here there, related here there →
      Option.Rel related ((sweep accepts).run here some) ((sweep accepts).run there some)
  | .group _ body => Respects related body
  | .guard holds => ∀ here there, related here there → holds here.cursor = holds there.cursor

theorem rel_cases {α β : Type} {holds : α → β → Prop} {first : Option α} {second : Option β}
    (h : Option.Rel holds first second) :
    first = none ∧ second = none ∨ ∃ x y, first = some x ∧ second = some y ∧ holds x y := by
  cases h with
  | none => exact .inl ⟨rfl, rfl⟩
  | some hxy => exact .inr ⟨_, _, rfl, rfl, hxy⟩

theorem rel_findSome? {places places' : List (Place κ)} (h : List.Forall₂ related places places')
    (hgo : ∀ {place place'}, related place place' → Option.Rel results (goOn place)
    (goOn' place')) :
    Option.Rel results (places.findSome? goOn) (places'.findSome? goOn') := by
  induction h with
  | nil => exact .none
  | cons hplace _ ih =>
    rw [List.findSome?_cons, List.findSome?_cons]
    obtain ⟨hfound, hfound'⟩ | ⟨last, last', hfound, hfound', hlast⟩ := rel_cases (hgo hplace)
    · rw [hfound, hfound']
      exact ih
    · rw [hfound, hfound']
      exact .some hlast

section Repetition
variable (hrelated : IsStepwise related)
variable (hstep : ∀ {place place'}, related place place' → Option.Rel related (step place)
    (step' place'))
include hrelated hstep

theorem forall₂_stations (hhere : related here there) {passed passed' : List (Place κ)}
    (hpassed : List.Forall₂ related passed passed') (n : Nat) :
    List.Forall₂ related (stations step n here passed) (stations step' n there passed') := by
  induction n generalizing here there passed passed' with
  | zero => exact .cons hhere hpassed
  | succ n ih =>
    rw [stations, stations]
    obtain ⟨hfound, hfound'⟩ | ⟨next, next', hfound, hfound', hnext⟩ := rel_cases (hstep hhere)
    · rw [hfound, hfound']
      exact .cons hhere hpassed
    · simp only [hfound, hfound', hrelated.left_lt_iff hhere hnext]
      split_ifs
      · exact ih hnext (.cons hhere hpassed)
      · exact .cons hhere hpassed

variable (hgo : ∀ {place place'}, related place place' → Option.Rel results (goOn place)
    (goOn' place'))
include hgo

theorem rel_shortest (hhere : related here there) (n : Nat) :
    Option.Rel results (shortest step goOn n here) (shortest step' goOn' n there) := by
  induction n generalizing here there with
  | zero => exact hgo hhere
  | succ n ih =>
    rw [shortest, shortest]
    obtain ⟨hnone, hnone'⟩ | ⟨last, last', hfound, hfound', hlast⟩ := rel_cases (hgo hhere)
    · obtain ⟨hitem, hitem'⟩ | ⟨next, next', hitem, hitem', hnext⟩ := rel_cases (hstep hhere)
      · simp only [hnone, hnone', hitem, hitem']
        exact .none
      · simp only [hnone, hnone', hitem, hitem', hrelated.left_lt_iff hhere hnext]
        split_ifs
        · exact ih hnext
        · exact .none
    · rw [hfound, hfound']
      exact .some hlast

end Repetition

/-- In repetitions more steps than characters ahead change nothing. -/
theorem run_many_enough {item : Pattern κ} (hn : here.cursor.left ≤ n) :
    (many true item).run here goOn =
      (stations (fun place => item.run place some) n here []).findSome? goOn ∧
      (many false item).run here goOn = shortest (fun place => item.run place some)
        goOn n here := by
  rw [run, run, stations_enough _ _ hn, shortest_enough _ _ hn]
  exact ⟨rfl, rfl⟩

theorem run_one_eq (accepts : Char → Bool) (goOn : Place κ → Option (Place κ)) :
    (one accepts).run here goOn = ((one accepts).run here some).bind goOn := by
  rw [run, run]
  split
  · split_ifs
    · rfl
    · rfl
  · rfl

theorem Respects.rel_run (h : Respects related pattern) (hrelated : IsStepwise related)
    (hhere : related here there)
    (hgo : ∀ {place place'}, related place place' → Option.Rel results (goOn place)
    (goOn' place')) :
    Option.Rel results (pattern.run here goOn) (pattern.run there goOn') := by
  induction pattern generalizing here there results goOn goOn' with
  | empty => exact hgo hhere
  | one accepts =>
    rw [run_one_eq accepts goOn, run_one_eq accepts goOn']
    obtain ⟨hnone, hnone'⟩ | ⟨next, next', hfound, hfound', hnext⟩ := rel_cases (h here there hhere)
    · rw [hnone, hnone']
      exact .none
    · rw [hfound, hfound']
      exact hgo hnext
  | seq first second ihfirst ihsecond =>
    exact ihfirst h.1 hhere fun hmiddle => ihsecond h.2 hmiddle hgo
  | alt first second ihfirst ihsecond =>
    rw [run_alt, run_alt]
    obtain ⟨hfound, hfound'⟩ | ⟨last, last', hfound, hfound', hlast⟩ :=
      rel_cases (ihfirst h.1 hhere hgo)
    · rw [hfound, hfound', Option.none_or, Option.none_or]
      exact ihsecond h.2 hhere hgo
    · rw [hfound, hfound', Option.some_or, Option.some_or]
      exact .some hlast
  | many greedy item ih =>
    have hstep {place place' : Place κ} (hplace : related place place') :
        Option.Rel related (item.run place some) (item.run place' some) :=
      ih h hplace .some
    cases greedy with
    | true =>
      rw [(run_many_enough (Nat.le_max_left here.cursor.left there.cursor.left)).1,
        (run_many_enough (Nat.le_max_right here.cursor.left there.cursor.left)).1]
      exact rel_findSome? (forall₂_stations hrelated hstep hhere .nil _) hgo
    | false =>
      rw [(run_many_enough (Nat.le_max_left here.cursor.left there.cursor.left)).2,
        (run_many_enough (Nat.le_max_right here.cursor.left there.cursor.left)).2]
      exact rel_shortest hrelated hstep hgo hhere _
  | sweep accepts =>
    cases h here there hhere with
    | some hnext => exact hgo hnext
  | group key body ih => exact ih h hhere fun hlast => hgo (hrelated.group key hhere hlast)
  | guard holds =>
    rw [run_guard, run_guard, h here there hhere]
    split_ifs
    · exact hgo hhere
    · exact .none

/-- Places at the same cursor are not told apart, whatever groups have been closed. -/
theorem respects_of_cursor
    (hcursor : ∀ {here there}, related here there → there.cursor = here.cursor)
    (hmove : ∀ {here there}, related here there → ∀ cursor,
      related ⟨cursor, here.groups⟩ ⟨cursor, there.groups⟩)
    (pattern : Pattern κ) : Respects related pattern := by
  induction pattern with
  | empty => trivial
  | one accepts =>
    rintro ⟨cursor, groups⟩ ⟨cursor', groups'⟩ h
    obtain rfl : cursor' = cursor := hcursor h
    rw [eq_between cursor'] at h ⊢
    cases cursor'.rest with
    | nil => exact .none
    | cons c rest =>
      rw [run_one_cons, run_one_cons]
      split_ifs
      · exact .some (hmove h _)
      · exact .none
  | seq first second ihfirst ihsecond => exact ⟨ihfirst, ihsecond⟩
  | alt first second ihfirst ihsecond => exact ⟨ihfirst, ihsecond⟩
  | many greedy item ih => exact ih
  | sweep accepts =>
    rintro ⟨cursor, groups⟩ ⟨cursor', groups'⟩ h
    obtain rfl : cursor' = cursor := hcursor h
    exact .some (hmove h _)
  | group key body ih => exact ih
  | guard holds =>
    intro here there h
    rw [hcursor h]

def SameCursor (here there : Place κ) : Prop := there.cursor = here.cursor

theorem isStepwise_sameCursor : IsStepwise (SameCursor : Place κ → Place κ → Prop) where
  left_lt_iff hhere hnext := by rw [hhere, hnext]
  group _ _ hnext := hnext

theorem respects_sameCursor (pattern : Pattern κ) : Respects SameCursor pattern :=
  respects_of_cursor id (fun _ _ => rfl) pattern

/-- The same place, behind the given groups. -/
structure IsBehind (past : List (κ × Span)) (here there : Place κ) : Prop where
  cursor : there.cursor = here.cursor
  groups : there.groups = here.groups ++ past

theorem isStepwise_isBehind (past : List (κ × Span)) : IsStepwise (IsBehind past) where
  left_lt_iff hhere hnext := by rw [hhere.cursor, hnext.cursor]
  group _ hhere hnext := ⟨hnext.cursor, by rw [hhere.cursor, hnext.cursor, hnext.groups]; rfl⟩

/-- A match closes its groups on top of those that are closed already. -/
theorem run_groups (pattern : Pattern κ) (here : Cursor) (groups : List (κ × Span)) :
    pattern.run ⟨here, groups⟩ some =
      (pattern.run ⟨here, []⟩ some).map fun last => ⟨last.cursor, last.groups ++ groups⟩ := by
  have hrun : Option.Rel (IsBehind groups) (pattern.run ⟨here, []⟩ some)
      (pattern.run ⟨here, groups⟩ some) :=
    (respects_of_cursor IsBehind.cursor (fun h _ => ⟨rfl, h.groups⟩) pattern).rel_run
      (isStepwise_isBehind groups) ⟨rfl, rfl⟩ .some
  obtain ⟨hnone, hnone'⟩ | ⟨⟨cursor, own⟩, ⟨cursor', all⟩, hsome, hsome', hcursor, hgroups⟩ :=
    rel_cases hrun
  · rw [hnone, hnone']
    rfl
  · rw [hsome, hsome', Option.map_some]
    obtain rfl : cursor' = cursor := hcursor
    exact congrArg (fun all => some (Place.mk cursor' all)) hgroups

theorem rel_true_iff {α β : Type} {first : Option α} {second : Option β} :
    Option.Rel (fun _ _ => True) first second ↔ first.isSome = second.isSome := by
  constructor
  · rintro (h | h)
    · rfl
    · rfl
  · intro h
    match first, second, h with
    | none, none, _ => exact .none
    | some _, some _, _ => exact .some trivial

/-- Whether a run succeeds does not depend on the groups. -/
theorem isSome_run_of_sameCursor (hhere : SameCursor here there)
    (hgo : ∀ {place place'}, SameCursor place place' → (goOn place).isSome =
    (goOn' place').isSome) :
    (pattern.run here goOn).isSome = (pattern.run there goOn').isSome :=
  rel_true_iff.mp <| (respects_sameCursor pattern).rel_run isStepwise_sameCursor hhere fun hplace =>
    rel_true_iff.mpr (hgo hplace)

end Visualforce.Pattern
