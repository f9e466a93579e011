import Mathlib.Data.List.Sort
import Visualforce.Expression.Basic
import Visualforce.Proofs.Text.Dedupe
import Visualforce.Proofs.Text.StableOrder

/-! # Ranked expressions

A ranking holds every expression once, the highest rank first and equal ranks by first occurrence.
There is just one ranking of a list, and ranking a part of the list beforehand makes no difference
to it.
-/
namespace Visualforce.Expression

variable {expressions ranked : List Text}

structure IsRanking (expressions ranked : List Text) : Prop where
  nodup : ranked.Nodup
  mem_iff : ∀ content, content ∈ ranked ↔ content ∈ expressions
  falling : ranked.Pairwise fun a b => rank b ≤ rank a
  stable : ranked.Pairwise fun a b => rank a = rank b → expressions.idxOf a < expressions.idxOf b

theorem rankAll_isStablyOrdered (expressions : List Text) :
    IsStablyOrdered rank (dedupe expressions) (rankAll expressions) :=
  mergeSort_isStablyOrdered rank (dedupe expressions)

theorem rankAll_isRanking (expressions : List Text) :
    IsRanking expressions (rankAll expressions) where
  nodup := (rankAll_isStablyOrdered expressions).perm.nodup_iff.mpr (nodup_dedupe expressions)
  mem_iff _ := (rankAll_isStablyOrdered expressions).mem_iff.trans mem_dedupe
  falling := (rankAll_isStablyOrdered expressions).falling
  stable := (rankAll_isStablyOrdered expressions).pairwise (pairwise_dedupe expressions)

/-- The first of two expressions comes before the second in a ranking. -/
def Precedes (expressions : List Text) (a b : Text) : Prop :=
  rank b < rank a ∨ rank a = rank b ∧ expressions.idxOf a < expressions.idxOf b

instance : Std.Irrefl (Precedes expressions) :=
  ⟨fun a h => by simp only [Precedes] at h; omega⟩

instance : Std.Antisymm (Precedes expressions) :=
  ⟨fun a b h h' => by simp only [Precedes] at h h'; omega⟩

theorem IsRanking.pairwise (h : IsRanking expressions ranked) :
    ranked.Pairwise (Precedes expressions) := by
  refine (h.falling.and h.stable).imp fun {a b} hab => ?_
  rcases Nat.lt_or_eq_of_le hab.1 with hlt | heq
  · exact .inl hlt
  · exact .inr ⟨heq.symm, hab.2 heq.symm⟩

theorem isRanking_iff : IsRanking expressions ranked ↔ ranked = rankAll expressions := by
  constructor
  · intro h
    have hrank := rankAll_isRanking expressions
    exact h.pairwise.eq_of_mem_iff hrank.pairwise fun content => (h.mem_iff content).trans
      (hrank.mem_iff content).symm
  · rintro rfl
    exact rankAll_isRanking expressions

/-- Rank by rank only the first occurrences count, and those of a part that was ranked before come
first. -/
theorem rankAll_append_isStablyOrdered (expressions more : List Text) :
    IsStablyOrdered rank (dedupe (expressions ++ more)) (rankAll (rankAll expressions ++ more))
      where
  falling := (rankAll_isStablyOrdered _).falling
  keeps n := calc
    (rankAll (rankAll expressions ++ more)).filter (rank · == n)
      = dedupe ((rankAll expressions).filter (rank · == n) ++ more.filter (rank · == n)) := by
        rw [(rankAll_isStablyOrdered _).keeps, filter_dedupe, List.filter_append]
    _ = dedupe (dedupe (expressions.filter (rank · == n)) ++ more.filter (rank · == n)) := by
        rw [(rankAll_isStablyOrdered expressions).keeps, filter_dedupe]
    _ = (dedupe (expressions ++ more)).filter (rank · == n) := by
        rw [dedupe_dedupe_append, ← List.filter_append, filter_dedupe]

/-- What is ranked is the one list that holds each expression once, by falling rank and for equal
ranks by first occurrence, and it is the same whether expressions are ranked early, late or
repeatedly. -/
theorem rankAll_determined (expressions : List Text) :
    (∀ ranked, IsRanking expressions ranked ↔ ranked = rankAll expressions) ∧
    ∀ more, rankAll (rankAll expressions ++ more) = rankAll (expressions ++ more) :=
  ⟨fun _ => isRanking_iff, fun more =>
    (rankAll_append_isStablyOrdered expressions more).unique
      (rankAll_isStablyOrdered (expressions ++ more))⟩

end Visualforce.Expression
