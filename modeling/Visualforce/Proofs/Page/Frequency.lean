import Mathlib.Algebra.BigOperators.Group.List.Lemmas
import Mathlib.Algebra.GroupWithZero.Nat
import Visualforce.Page.Frequency
import Visualforce.Proofs.Text.Dedupe
import Visualforce.Proofs.Text.StableOrder

/-! # Components by frequency

Counting the components of a page by qualified name loses none, and ordering them by falling counts
moves none past another of the same count.
-/
namespace Visualforce.Page

variable {page : Page} {name : Text}

def componentNames (page : Page) : List Text := page.components.map (·.qualifiedName)

/-- Each qualified name that a component has stands once, by first use, with the number of
components that have it. -/
structure IsCount (page : Page) (counts : List (Text × Nat)) : Prop where
  nodup : (counts.map (·.1)).Nodup
  mem_iff : ∀ name, name ∈ counts.map (·.1) ↔ ∃ usage ∈ page.components, usage.qualifiedName = name
  firstSeen : (counts.map (·.1)).Pairwise fun a b => page.componentNames.idxOf a <
    page.componentNames.idxOf b
  number : ∀ entry ∈ counts, entry.2 = (page.components.filter (·.qualifiedName == entry.1)).length
  sum : (counts.map (·.2)).sum = page.componentCount

theorem componentCounts_names (page : Page) : page.componentCounts.map (·.1) =
    dedupe page.componentNames := by
  rw [componentCounts, List.map_map]
  exact List.map_id _

theorem mem_componentNames : name ∈ page.componentNames ↔
    ∃ usage ∈ page.components, usage.qualifiedName = name :=
  List.mem_map

theorem count_componentNames (page : Page) (name : Text) :
    page.componentNames.count name = (page.components.filter (·.qualifiedName == name)).length := by
  rw [componentNames, List.count, List.countP_map, List.countP_eq_length_filter]
  rfl

theorem componentCounts_sum (page : Page) : (page.componentCounts.map (·.2)).sum =
    page.componentCount := by
  have hperm : (dedupe page.componentNames).Perm page.componentNames.dedup :=
    (List.perm_ext_iff_of_nodup (nodup_dedupe _) (List.nodup_dedup _)).mpr fun name =>
      mem_dedupe.trans List.mem_dedup.symm
  calc (page.componentCounts.map (·.2)).sum
      = ((dedupe page.componentNames).map (page.componentNames.count ·)).sum := by
        rw [componentCounts, List.map_map]
        rfl
    _ = page.componentNames.length := by
        rw [(hperm.map _).sum_eq]
        -- The library counts with another equality test of texts, which agrees with this one.
        convert List.sum_map_count_dedup_eq_length page.componentNames
        rfl
    _ = page.componentCount := List.length_map _

theorem componentCounts_isCount (page : Page) : IsCount page page.componentCounts where
  nodup := componentCounts_names page ▸ nodup_dedupe _
  mem_iff name := by rw [componentCounts_names, mem_dedupe, mem_componentNames]
  firstSeen := componentCounts_names page ▸ pairwise_dedupe _
  number entry hentry := by
    obtain ⟨name, -, rfl⟩ := List.mem_map.mp hentry
    exact count_componentNames page name
  sum := componentCounts_sum page

theorem usesOf_mem_componentCounts {usage : ComponentUsage} (h : usage ∈ page.components) :
    (usage.qualifiedName, page.usesOf usage) ∈ page.componentCounts :=
  List.mem_map.mpr ⟨usage.qualifiedName, mem_dedupe.mpr (mem_componentNames.mpr ⟨usage, h, rfl⟩),
    rfl⟩

/-- On every page the counts are those of the qualified names by first use and come to the number of
components. The order by frequency is the one permutation of the components along which the counts
fall and in which all components whose names are counted equally often stand as in the document. -/
theorem componentsByFrequency_stable (page : Page) :
    IsCount page page.componentCounts ∧
    (∀ usage ∈ page.components, (usage.qualifiedName, page.usesOf usage) ∈ page.componentCounts) ∧
    page.componentsByFrequency.Perm page.components ∧
    ∀ ordered, IsStablyOrdered page.usesOf page.components ordered ↔
      ordered = page.componentsByFrequency :=
  ⟨componentCounts_isCount page, fun _ => usesOf_mem_componentCounts, List.mergeSort_perm _ _,
    fun _ => isStablyOrdered_iff⟩

/-- A form whose two fields and their labels alternate. -/
def alternatingPage : Page :=
  { Page.empty .tree with
    components := ["form", "label", "field", "label", "field"].map fun name =>
      ⟨"c".toList, name.toList, []⟩ }

theorem componentsByFrequency_alternatingPage :
    alternatingPage.componentsByFrequency.map (·.name) =
      ["label", "field", "label", "field", "form"].map String.toList ∧
    ("c:field".toList, 2) ∈ alternatingPage.componentCounts := by
  obtain ⟨-, hcounts, -, hordered⟩ := componentsByFrequency_stable alternatingPage
  have hstable : IsStablyOrdered alternatingPage.usesOf alternatingPage.components
      (["label", "field", "label", "field", "form"].map fun name =>
        ⟨"c".toList, name.toList, []⟩) := by
    refine ⟨by decide, fun n => ?_⟩
    match n with
    | 0 | 1 | 2 => decide
    | n + 3 => rfl
  rw [← (hordered _).mp hstable]
  exact ⟨by decide, hcounts ⟨"c".toList, "field".toList, []⟩ (by decide)⟩

end Visualforce.Page
