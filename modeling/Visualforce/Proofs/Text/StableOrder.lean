import Mathlib.Data.List.Count
import Mathlib.Data.List.Nodup

/-! # Stable orders

Values are put in order by falling numbers when the numbers fall along them and values of equal
numbers stand as they stood before. There is only one such order, the one a stable sort gives.
-/
namespace Visualforce

variable {α : Type} {number : α → Nat} {values sorted others : List α}

/-- The values in order of falling numbers; for each number those that have it stand as they were
given. -/
structure IsStablyOrdered (number : α → Nat) (values sorted : List α) : Prop where
  falling : sorted.Pairwise fun a b => number b ≤ number a
  keeps : ∀ n, sorted.filter (number · == n) = values.filter (number · == n)

theorem mergeSort_isStablyOrdered (number : α → Nat) (values : List α) :
    IsStablyOrdered number values (values.mergeSort fun a b => number b ≤ number a) := by
  have htrans : ∀ a b c, decide (number b ≤ number a) → decide (number c ≤ number b) →
      decide (number c ≤ number a) := by
    intro a b c hab hbc
    exact decide_eq_true (Nat.le_trans (of_decide_eq_true hbc) (of_decide_eq_true hab))
  have htotal : ∀ a b, decide (number b ≤ number a) || decide (number a ≤ number b) := by
    intro a b
    exact Bool.or_eq_true_iff.mpr
      ((Nat.le_total (number b) (number a)).imp decide_eq_true decide_eq_true)
  constructor
  · exact (List.pairwise_mergeSort htrans htotal values).imp of_decide_eq_true
  · intro n
    -- Values of one number are in order already, so the sort keeps them as a sublist, and it loses
    -- nothing.
    have hnumber : ∀ a ∈ values.filter (number · == n), number a = n :=
      fun a ha => beq_iff_eq.mp (List.mem_filter.mp ha).2
    have hordered : (values.filter (number · == n)).Pairwise fun a b =>
      decide (number b ≤ number a) :=
      List.pairwise_of_forall_mem_list fun a ha b hb =>
        decide_eq_true (Nat.le_of_eq ((hnumber b hb).trans (hnumber a ha).symm))
    have hsublist := (List.sublist_mergeSort htrans htotal hordered List.filter_sublist).filter
      (number · == n)
    simp only [List.filter_filter, Bool.and_self] at hsublist
    exact (hsublist.eq_of_length ((List.mergeSort_perm values _).filter _).length_eq.symm).symm

namespace IsStablyOrdered

theorem mem_iff (h : IsStablyOrdered number values sorted) {a : α} : a ∈ sorted ↔ a ∈ values := by
  have hfilter : a ∈ sorted.filter (number · == number a) ↔
    a ∈ values.filter (number · == number a) := by
    rw [h.keeps]
  simpa [List.mem_filter] using hfilter

theorem perm [DecidableEq α] (h : IsStablyOrdered number values sorted) : sorted.Perm values := by
  refine List.perm_iff_count.mpr fun a => ?_
  have hcount : ∀ list : List α, (list.filter (number · == number a)).count a = list.count a :=
    fun list => List.count_filter (beq_self_eq_true _)
  rw [← hcount sorted, h.keeps, hcount values]

/-- Among values of equal numbers every relation that held along them before holds still. -/
theorem pairwise {R : α → α → Prop} (h : IsStablyOrdered number values sorted)
    (hvalues : values.Pairwise R) :
    sorted.Pairwise fun a b => number a = number b → R a b := by
  refine List.pairwise_iff_forall_sublist.mpr fun {a b} hpair heq => ?_
  have hpair := hpair.filter (number · == number a)
  rw [h.keeps] at hpair
  have hboth : [a, b].filter (number · == number a) = [a, b] := by simp [heq]
  rw [hboth] at hpair
  exact List.pairwise_iff_forall_sublist.mp hvalues (hpair.trans List.filter_sublist)

theorem unique (h : IsStablyOrdered number values sorted)
    (hothers : IsStablyOrdered number values others) :
    sorted = others := by
  induction sorted generalizing values others with
  | nil =>
    refine (List.eq_nil_iff_forall_not_mem.mpr fun a ha => ?_).symm
    exact List.not_mem_nil (h.mem_iff.mpr (hothers.mem_iff.mp ha))
  | cons a rest ih =>
    cases others with
    | nil => exact absurd (hothers.mem_iff.mpr (h.mem_iff.mp List.mem_cons_self)) List.not_mem_nil
    | cons b more =>
      obtain ⟨hfirst, hrest⟩ := List.pairwise_cons.mp h.falling
      obtain ⟨hfirst', hmore⟩ := List.pairwise_cons.mp hothers.falling
      have hsame : ∀ n, (a :: rest).filter (number · == n) = (b :: more).filter (number · == n) :=
        fun n => (h.keeps n).trans (hothers.keeps n).symm
      have hle : number b ≤ number a := by
        rcases List.mem_cons.mp (h.mem_iff.mpr (hothers.mem_iff.mp List.mem_cons_self)) with hb | hb
        · exact Nat.le_of_eq (congrArg number hb)
        · exact hfirst b hb
      have hge : number a ≤ number b := by
        rcases List.mem_cons.mp (hothers.mem_iff.mpr (h.mem_iff.mp List.mem_cons_self)) with ha | ha
        · exact Nat.le_of_eq (congrArg number ha)
        · exact hfirst' a ha
      -- Both first values have the highest number, so they begin the same values of that number.
      have hnumber := Nat.le_antisymm hle hge
      have hhead := hsame (number a)
      simp only [List.filter_cons, hnumber, beq_self_eq_true, if_true] at hhead
      obtain rfl : a = b := (List.cons.inj hhead).1
      have hordered : IsStablyOrdered number rest rest := ⟨hrest, fun _ => rfl⟩
      refine congrArg (a :: ·) (ih hordered ⟨hmore, fun n => ?_⟩)
      have hn := hsame n
      simp only [List.filter_cons] at hn
      split_ifs at hn
      · exact ((List.cons.inj hn).2).symm
      · exact hn.symm

end IsStablyOrdered

theorem isStablyOrdered_iff : IsStablyOrdered number values sorted ↔
    sorted = values.mergeSort fun a b => number b ≤ number a := by
  constructor
  · exact fun h => h.unique (mergeSort_isStablyOrdered number values)
  · rintro rfl
    exact mergeSort_isStablyOrdered number values

end Visualforce
