import Mathlib.Data.List.Induction
import Mathlib.Data.List.Nodup
import Visualforce.Text.Basic

/-! # Lists without repetitions

Removing later repetitions keeps exactly the first occurrence of each value.
-/
namespace Visualforce

variable {α : Type} [BEq α] [LawfulBEq α]

omit [LawfulBEq α] in
private theorem foldl_keep_eq (values kept : List α) :
    (values.foldl (fun kept v => if kept.contains v then kept else v :: kept) kept).reverse =
      List.eraseDupsBy.loop (· == ·) values kept := by
  induction values generalizing kept with
  | nil => rfl
  | cons v rest ih =>
    rw [List.foldl_cons, ih, List.eraseDupsBy.loop, List.contains_eq_any_beq]
    cases kept.any (v == ·) <;> rfl

omit [LawfulBEq α] in
theorem dedupe_eq_eraseDups (values : List α) : dedupe values = values.eraseDups :=
  foldl_keep_eq values []

omit [LawfulBEq α] in
@[simp] theorem dedupe_nil : dedupe ([] : List α) = [] := rfl

omit [LawfulBEq α] in
theorem dedupe_cons (v : α) (rest : List α) :
    dedupe (v :: rest) = v :: dedupe (rest.filter fun w => !(w == v)) := by
  simp only [dedupe_eq_eraseDups, List.eraseDups_cons]

@[simp] theorem mem_dedupe {v : α} {values : List α} : v ∈ dedupe values ↔ v ∈ values := by
  rw [dedupe_eq_eraseDups]
  exact List.mem_eraseDups

theorem nodup_dedupe (values : List α) : (dedupe values).Nodup := by
  have hfold : ∀ (values kept : List α), kept.Nodup →
      (values.foldl (fun kept v => if kept.contains v then kept else v :: kept) kept).Nodup := by
    intro values
    induction values with
    | nil => exact fun kept h => h
    | cons v rest ih =>
      intro kept h
      rw [List.foldl_cons]
      refine ih _ ?_
      split
      · exact h
      · rename_i hnew
        exact List.nodup_cons.mpr ⟨by simpa using hnew, h⟩
  exact List.nodup_reverse.mpr (hfold values [] List.nodup_nil)

theorem dedupe_of_nodup {values : List α} (h : values.Nodup) : dedupe values = values := by
  induction values with
  | nil => rfl
  | cons v rest ih =>
    obtain ⟨hnew, hrest⟩ := List.nodup_cons.mp h
    have hfilter : (rest.filter fun w => !(w == v)) = rest :=
      List.filter_eq_self.mpr fun w hw => by simpa using ne_of_mem_of_not_mem hw hnew
    rw [dedupe_cons, hfilter, ih hrest]

@[simp] theorem dedupe_dedupe (values : List α) : dedupe (dedupe values) = dedupe values :=
  dedupe_of_nodup (nodup_dedupe values)

/-- What is appended comes behind what was kept before. -/
theorem dedupe_prefix_append (few others : List α) : dedupe few <+: dedupe (few ++ others) := by
  simp only [dedupe_eq_eraseDups]
  rw [List.eraseDups_append]
  exact List.prefix_append _ _

/-- Appending values that are there already adds nothing. -/
theorem dedupe_append_of_subset {few others : List α} (h : others ⊆ few) :
    dedupe (few ++ others) = dedupe few := by
  have hnone : others.removeAll few = [] :=
    List.filter_eq_nil_iff.mpr fun v hv => by simpa using h hv
  simp only [dedupe_eq_eraseDups]
  rw [List.eraseDups_append, hnone, List.eraseDups_nil, List.append_nil]

theorem dedupe_append_singleton (values : List α) (v : α) :
    dedupe (values ++ [v]) = if v ∈ values then dedupe values else dedupe values ++ [v] := by
  split_ifs with hmem
  · exact dedupe_append_of_subset (List.cons_subset.mpr ⟨hmem, List.nil_subset _⟩)
  · have hnew : [v].removeAll values = [v] :=
      List.filter_eq_self.mpr fun w hw => by simpa [List.mem_singleton.mp hw] using hmem
    rw [dedupe_eq_eraseDups, List.eraseDups_append, hnew, dedupe_eq_eraseDups]
    rfl

/-- The values stand in the order of their first occurrence. -/
theorem pairwise_dedupe (values : List α) :
    (dedupe values).Pairwise fun a b => values.idxOf a < values.idxOf b := by
  induction values using List.reverseRecOn with
  | nil => exact .nil
  | append_singleton values v ih =>
    have hkept : (dedupe values).Pairwise fun a b => (values ++ [v]).idxOf a <
      (values ++ [v]).idxOf b := by
      refine ih.imp_of_mem fun {a b} ha hb h => ?_
      rwa [List.idxOf_append_of_mem (mem_dedupe.mp ha), List.idxOf_append_of_mem (mem_dedupe.mp hb)]
    rw [dedupe_append_singleton]
    split_ifs with hmem
    · exact hkept
    · refine List.pairwise_append.mpr ⟨hkept, List.pairwise_singleton _ _, fun a ha b hb => ?_⟩
      have ha := mem_dedupe.mp ha
      rw [List.mem_singleton.mp hb, List.idxOf_append_of_mem ha, List.idxOf_append_of_notMem hmem]
      exact Nat.lt_of_lt_of_le (List.idxOf_lt_length_of_mem ha) (Nat.le_add_right ..)

theorem dedupe_map {β : Type} [BEq β] [LawfulBEq β] {f : α → β} (hf : Function.Injective f)
    (values : List α) :
    dedupe (values.map f) = (dedupe values).map f := by
  induction values using List.reverseRecOn with
  | nil => rfl
  | append_singleton values v ih =>
    rw [List.map_append, List.map_singleton, dedupe_append_singleton, dedupe_append_singleton, ih]
    simp only [List.mem_map_of_injective hf]
    split_ifs
    · rfl
    · rw [List.map_append, List.map_singleton]

theorem filter_dedupe (accepts : α → Bool) (values : List α) :
    (dedupe values).filter accepts = dedupe (values.filter accepts) := by
  induction values using List.reverseRecOn with
  | nil => rfl
  | append_singleton values v ih =>
    rw [dedupe_append_singleton, List.filter_append]
    cases hv : accepts v with
    | false =>
      rw [List.filter_singleton, hv, cond_false, List.append_nil, ← ih]
      split_ifs with hmem
      · rfl
      · rw [List.filter_append, List.filter_singleton, hv, cond_false, List.append_nil]
    | true =>
      have hmem : v ∈ values.filter accepts ↔ v ∈ values := by rw [List.mem_filter, and_iff_left hv]
      simp only [List.filter_singleton, hv, cond_true, dedupe_append_singleton, ← ih, hmem]
      split_ifs
      · rfl
      · rw [List.filter_append, List.filter_singleton, hv, cond_true]

/-- Repetitions may be removed from the front first. -/
theorem dedupe_dedupe_append (few others : List α) : dedupe (dedupe few ++ others) =
    dedupe (few ++ others) := by
  have hnew : others.removeAll (dedupe few) = others.removeAll few := by
    refine List.filter_congr fun v _ => ?_
    rw [Bool.eq_iff_iff, Bool.not_eq_true', Bool.not_eq_true', ← Bool.not_eq_true,
      ← Bool.not_eq_true, List.contains_iff_mem, List.contains_iff_mem, mem_dedupe]
  simp only [dedupe_eq_eraseDups, List.eraseDups_append] at hnew ⊢
  rw [hnew, ← dedupe_eq_eraseDups few, ← dedupe_eq_eraseDups, dedupe_dedupe]

end Visualforce
