import Mathlib.Data.List.Nodup
import Mathlib.Data.List.Infix
import Visualforce.Markup.Tree

/-! # Occurrences of elements in a tree

Every element below a root has a place, the list of child positions that lead to it. Places turn
"strict ancestor" into "proper prefix", and the elements in document order are listed with distinct
places.
-/
namespace Visualforce.Markup

/-- An element of a tree, known by its place and its head. -/
structure Occurrence where
  place : List Nat
  head : Head
deriving DecidableEq, Repr

mutual
/-- The elements of a node in document order, itself first. -/
def Node.occurrences (place : List Nat) : Node → List Occurrence
  | .text _ => []
  | .element head children => ⟨place, head⟩ :: occurrencesIn place 0 children

/-- The elements of consecutive children, the first of which has the position `first`. -/
def occurrencesIn (place : List Nat) (first : Nat) : List Node → List Occurrence
  | [] => []
  | node :: rest => node.occurrences (place ++ [first]) ++ occurrencesIn place (first + 1) rest
end

def Element.below (root : Element) : List Occurrence := occurrencesIn [] 0 root.children

namespace Occurrence

/-- Whether `a` is a strict ancestor of `o`. -/
def IsAbove (a o : Occurrence) : Prop := a.place <+: o.place ∧ a.place ≠ o.place

instance (a o : Occurrence) : Decidable (a.IsAbove o) := inferInstanceAs (Decidable (_ ∧ _))

/-- Whether `a`, one of the listed elements with the given tag, is the nearest such strict ancestor
of `o`. -/
def IsNearest (listed : List Occurrence) (tag : Text) (a o : Occurrence) : Prop :=
  a ∈ listed ∧ a.head.tag = tag ∧ a.IsAbove o ∧
    ∀ b ∈ listed, b.head.tag = tag → b.IsAbove o → b.place <+: a.place

instance (listed : List Occurrence) (tag : Text) (a o : Occurrence) :
    Decidable (IsNearest listed tag a o) := inferInstanceAs (Decidable (_ ∧ _ ∧ _ ∧ _))

theorem not_isAbove_self (a : Occurrence) : ¬ a.IsAbove a := fun h => h.2 rfl

theorem IsAbove.length_lt {a o : Occurrence} (h : a.IsAbove o) :
    a.place.length < o.place.length := by
  rcases Nat.lt_or_eq_of_le h.1.length_le with hl | hl
  · exact hl
  · exact absurd (h.1.eq_of_length hl) h.2

theorem IsAbove.trans {a b o : Occurrence} (hab : a.IsAbove b) (hbo : b.IsAbove o) :
    a.IsAbove o := by
  refine ⟨hab.1.trans hbo.1, fun h => ?_⟩
  have := hab.length_lt
  have := hbo.length_lt
  rw [h] at *
  omega

end Occurrence

mutual
theorem Node.place_isPrefix {place : List Nat} {o : Occurrence} :
    ∀ node : Node, o ∈ node.occurrences place → place <+: o.place
  | .text _, h => by simp [Node.occurrences] at h
  | .element head children, h => by
    simp only [Node.occurrences, List.mem_cons] at h
    rcases h with rfl | h
    · exact List.prefix_rfl
    · obtain ⟨i, -, hi⟩ := occurrencesIn_place children h
      exact (List.prefix_append place [i]).trans hi

/-- The places below consecutive children begin with the position of their child. -/
theorem occurrencesIn_place {place : List Nat} {first : Nat} {o : Occurrence} :
    ∀ nodes : List Node, o ∈ occurrencesIn place first nodes →
      ∃ i, first ≤ i ∧ place ++ [i] <+: o.place
  | [], h => by simp [occurrencesIn] at h
  | node :: rest, h => by
    simp only [occurrencesIn, List.mem_append] at h
    rcases h with h | h
    · exact ⟨first, le_rfl, node.place_isPrefix h⟩
    · obtain ⟨i, hi, hp⟩ := occurrencesIn_place rest h
      exact ⟨i, by omega, hp⟩
end

theorem occurrencesIn_above {place : List Nat} {first : Nat} {nodes : List Node} {o : Occurrence}
    (h : o ∈ occurrencesIn place first nodes) (head : Head) :
    (Occurrence.mk place head).IsAbove o := by
  obtain ⟨i, -, hi⟩ := occurrencesIn_place nodes h
  refine ⟨(List.prefix_append place [i]).trans hi, fun he => ?_⟩
  have hl := hi.length_le
  simp only at he
  rw [← he, List.length_append, List.length_singleton] at hl
  omega

/-- Places that continue one place by different positions are unrelated. -/
theorem not_prefix_of_fork {place p q : List Nat} {i j : Nat} (hi : place ++ [i] <+: p)
    (hj : place ++ [j] <+: q) (hij : i ≠ j) : ¬ p <+: q := by
  intro h
  have hp : place ++ [i] <+: q := hi.trans h
  have he := List.prefix_of_prefix_length_le hp hj (by simp)
  have hq := he.eq_of_length (by simp)
  simp only [List.append_cancel_left_eq, List.cons.injEq, and_true] at hq
  exact hij hq

theorem occurrences_apart {place : List Nat} {first : Nat} {node : Node} {rest : List Node}
    {a o : Occurrence} (ha : a ∈ node.occurrences (place ++ [first]))
    (ho : o ∈ occurrencesIn place (first + 1) rest) :
    ¬ a.place <+: o.place ∧ ¬ o.place <+: a.place := by
  have hp := node.place_isPrefix ha
  obtain ⟨i, hi, hq⟩ := occurrencesIn_place rest ho
  exact ⟨not_prefix_of_fork hp hq (by omega), not_prefix_of_fork hq hp (by omega)⟩

mutual
theorem Node.places_nodup (place : List Nat) :
    ∀ node : Node, ((node.occurrences place).map (·.place)).Nodup
  | .text _ => by simp [Node.occurrences]
  | .element head children => by
    simp only [Node.occurrences, List.map_cons, List.nodup_cons, List.mem_map, not_exists, not_and]
    refine ⟨fun o ho he => ?_, occurrencesIn_places_nodup place 0 children⟩
    exact (occurrencesIn_above ho head).2 he.symm

theorem occurrencesIn_places_nodup (place : List Nat) (first : Nat) :
    ∀ nodes : List Node, ((occurrencesIn place first nodes).map (·.place)).Nodup
  | [] => by simp [occurrencesIn]
  | node :: rest => by
    simp only [occurrencesIn, List.map_append, List.nodup_append]
    refine ⟨node.places_nodup _, occurrencesIn_places_nodup place _ rest, ?_⟩
    intro p hp q hq he
    obtain ⟨a, ha, rfl⟩ := List.mem_map.mp hp
    obtain ⟨o, ho, rfl⟩ := List.mem_map.mp hq
    exact (occurrences_apart ha ho).1 (he ▸ List.prefix_rfl)
end

theorem eq_of_place_eq {root : Element} {a b : Occurrence} (ha : a ∈ root.below)
    (hb : b ∈ root.below) (h : a.place = b.place) : a = b :=
  List.inj_on_of_nodup_map (occurrencesIn_places_nodup [] 0 root.children) ha hb h

theorem Occurrence.IsNearest.unique {root : Element} {tag : Text} {a b o : Occurrence}
    (ha : IsNearest root.below tag a o) (hb : IsNearest root.below tag b o) : a = b := by
  obtain ⟨hma, hta, haa, hna⟩ := ha
  obtain ⟨hmb, htb, hab, hnb⟩ := hb
  have hle := hna b hmb htb hab
  have hge := hnb a hma hta haa
  exact eq_of_place_eq hma hmb (hge.eq_of_length (le_antisymm hge.length_le hle.length_le))

mutual
def Node.outer (tag : Text) (place : List Nat) : Node → List Occurrence
  | .text _ => []
  | .element head children =>
    ⟨place, head⟩ :: if head.tag = tag then [] else outerIn tag place 0 children

def outerIn (tag : Text) (place : List Nat) (first : Nat) : List Node → List Occurrence
  | [] => []
  | node :: rest => node.outer tag (place ++ [first]) ++ outerIn tag place (first + 1) rest
end

mutual
/-- The elements with the tag in document order, each with the elements it is nearest to. -/
def Node.groups (tag : Text) (place : List Nat) : Node → List (Occurrence × List Occurrence)
  | .text _ => []
  | .element head children =>
    if head.tag = tag then
      (⟨place, head⟩, outerIn tag place 0 children) :: groupsIn tag place 0 children
    else groupsIn tag place 0 children

def groupsIn (tag : Text) (place : List Nat) (first : Nat) :
    List Node → List (Occurrence × List Occurrence)
  | [] => []
  | node :: rest => node.groups tag (place ++ [first]) ++ groupsIn tag place (first + 1) rest
end

def IsOuter (listed : List Occurrence) (tag : Text) (o : Occurrence) : Prop :=
  ∀ b ∈ listed, b.head.tag = tag → ¬ b.IsAbove o

instance (listed : List Occurrence) (tag : Text) (o : Occurrence) :
    Decidable (IsOuter listed tag o) :=
  inferInstanceAs (Decidable (∀ b ∈ listed, _ → _))

mutual
theorem Node.outer_eq_filter (tag : Text) (place : List Nat) : ∀ node : Node,
    node.outer tag place =
      (node.occurrences place).filter fun o => IsOuter (node.occurrences place) tag o
  | .text _ => by simp [Node.outer, Node.occurrences]
  | .element head children => by
    have hroot : IsOuter (⟨place, head⟩ :: occurrencesIn place 0 children) tag ⟨place, head⟩ := by
      intro b hb _ hab
      rcases List.mem_cons.mp hb with rfl | hb
      · exact Occurrence.not_isAbove_self _ hab
      · exact Occurrence.not_isAbove_self _ (hab.trans (occurrencesIn_above hb head))
    have hall : (Node.element head children).occurrences place =
        ⟨place, head⟩ :: occurrencesIn place 0 children := by simp only [Node.occurrences]
    rw [hall, Node.outer, List.filter_cons_of_pos (by simpa using hroot)]
    congr 1
    split_ifs with htag
    · refine (List.filter_eq_nil_iff.mpr fun o ho => ?_).symm
      have hab := occurrencesIn_above ho head
      simp only [decide_eq_true_eq]
      exact fun h => h _ (List.mem_cons_self ..) htag hab
    · rw [outerIn_eq_filter]
      refine List.filter_congr fun o _ =>
        decide_eq_decide.mpr ⟨fun h b hb ht => ?_, fun h b hb ht => ?_⟩
      · rcases List.mem_cons.mp hb with rfl | hb
        · exact absurd ht htag
        · exact h b hb ht
      · exact h b (List.mem_cons_of_mem _ hb) ht

theorem outerIn_eq_filter (tag : Text) (place : List Nat) (first : Nat) : ∀ nodes : List Node,
    outerIn tag place first nodes =
      (occurrencesIn place first nodes).filter fun o => IsOuter (occurrencesIn place first nodes)
        tag o
  | [] => by simp [outerIn, occurrencesIn]
  | node :: rest => by
    simp only [outerIn, occurrencesIn, List.filter_append]
    rw [node.outer_eq_filter, outerIn_eq_filter]
    congr 1
    · refine List.filter_congr fun o ho => decide_eq_decide.mpr ⟨fun h b hb ht hab => ?_,
        fun h b hb => ?_⟩
      · rcases List.mem_append.mp hb with hb | hb
        · exact h b hb ht hab
        · exact (occurrences_apart ho hb).2 hab.1
      · exact h b (List.mem_append_left _ hb)
    · refine List.filter_congr fun o ho => decide_eq_decide.mpr ⟨fun h b hb ht hab => ?_,
        fun h b hb => ?_⟩
      · rcases List.mem_append.mp hb with hb | hb
        · exact (occurrences_apart hb ho).1 hab.1
        · exact h b hb ht hab
      · exact h b (List.mem_append_right _ hb)
end

def nearestGroup (listed : List Occurrence) (tag : Text) (a : Occurrence) : List Occurrence :=
  listed.filter fun o => Occurrence.IsNearest listed tag a o

def nearestGroups (listed : List Occurrence) (tag : Text) : List (Occurrence × List Occurrence) :=
  (listed.filter (·.head.tag = tag)).map fun a => (a, nearestGroup listed tag a)

/-- Listing more elements changes no nearest ancestor when those that are above lie further out. -/
theorem Occurrence.isNearest_congr {few many : List Occurrence} {tag : Text} {a o : Occurrence}
    (ha : a ∈ few) (hsub : few ⊆ many)
    (hrest : ∀ b ∈ many, b.IsAbove o → b ∈ few ∨ b.place <+: a.place) :
    IsNearest many tag a o ↔ IsNearest few tag a o := by
  constructor
  · rintro ⟨-, ht, hab, hn⟩
    exact ⟨ha, ht, hab, fun b hb => hn b (hsub hb)⟩
  · rintro ⟨-, ht, hab, hn⟩
    refine ⟨hsub ha, ht, hab, fun b hb hbt hba => ?_⟩
    rcases hrest b hb hba with h | h
    · exact hn b h hbt hba
    · exact h

/-- The group of an element that all others lie below. -/
theorem nearestGroup_top (top : Occurrence) {inner : List Occurrence} {tag : Text}
    (ht : top.head.tag = tag) (habove : ∀ o ∈ inner, top.IsAbove o) :
    nearestGroup (top :: inner) tag top = inner.filter fun o => IsOuter inner tag o := by
  have hself : ¬ Occurrence.IsNearest (top :: inner) tag top top := by
    intro h
    exact top.not_isAbove_self h.2.2.1
  rw [nearestGroup, List.filter_cons_of_neg (by simpa using hself)]
  refine List.filter_congr fun o ho => decide_eq_decide.mpr ⟨fun h b hb hbt hbo => ?_, fun h => ?_⟩
  · have hbelow := h.2.2.2 b (List.mem_cons_of_mem _ hb) hbt hbo
    exact (habove b hb).2 ((habove b hb).1.eq_of_length_le hbelow.length_le)
  · refine ⟨List.mem_cons_self .., ht, habove o ho, fun b hb hbt hbo => ?_⟩
    rcases List.mem_cons.mp hb with rfl | hb
    · exact List.prefix_rfl
    · exact absurd hbo (h b hb hbt)

theorem nearestGroup_cons {top a : Occurrence} {inner : List Occurrence} {tag : Text}
    (habove : ∀ o ∈ inner, top.IsAbove o) (ha : a ∈ inner) :
    nearestGroup (top :: inner) tag a = nearestGroup inner tag a := by
  have htop : ¬ Occurrence.IsNearest (top :: inner) tag a top :=
    fun h => a.not_isAbove_self (h.2.2.1.trans (habove a ha))
  rw [nearestGroup, List.filter_cons_of_neg (by simpa using htop)]
  refine List.filter_congr fun o _ => decide_eq_decide.mpr ?_
  apply Occurrence.isNearest_congr ha (List.subset_cons_self _ _)
  intro b hb _
  rcases List.mem_cons.mp hb with rfl | hb
  · exact Or.inr (habove a ha).1
  · exact Or.inl hb

/-- Lists of elements none of which is above one of the other list. -/
def Apart (few others : List Occurrence) : Prop :=
  ∀ a ∈ few, ∀ o ∈ others, ¬ a.place <+: o.place ∧ ¬ o.place <+: a.place

theorem nearestGroup_append_left {few others : List Occurrence} {tag : Text} {a : Occurrence}
    (hap : Apart few others) (ha : a ∈ few) :
    nearestGroup (few ++ others) tag a = nearestGroup few tag a := by
  have hnil : (others.filter fun o => Occurrence.IsNearest (few ++ others) tag a o) = [] := by
    apply List.filter_eq_nil_iff.mpr
    intro o ho
    simp only [decide_eq_true_eq]
    exact fun h => (hap a ha o ho).1 h.2.2.1.1
  rw [nearestGroup, List.filter_append, hnil, List.append_nil]
  refine List.filter_congr fun o ho => decide_eq_decide.mpr ?_
  apply Occurrence.isNearest_congr ha (List.subset_append_left _ _)
  intro b hb hbo
  rcases List.mem_append.mp hb with hb | hb
  · exact Or.inl hb
  · exact absurd hbo.1 (hap o ho b hb).2

theorem nearestGroup_append_right {few others : List Occurrence} {tag : Text} {a : Occurrence}
    (hap : Apart few others) (ha : a ∈ others) :
    nearestGroup (few ++ others) tag a = nearestGroup others tag a := by
  have hnil : (few.filter fun o => Occurrence.IsNearest (few ++ others) tag a o) = [] := by
    apply List.filter_eq_nil_iff.mpr
    intro o ho
    simp only [decide_eq_true_eq]
    exact fun h => (hap o ho a ha).2 h.2.2.1.1
  rw [nearestGroup, List.filter_append, hnil, List.nil_append]
  refine List.filter_congr fun o ho => decide_eq_decide.mpr ?_
  apply Occurrence.isNearest_congr ha (List.subset_append_right _ _)
  intro b hb hbo
  rcases List.mem_append.mp hb with hb | hb
  · exact absurd hbo.1 (hap b hb o ho).1
  · exact Or.inl hb

theorem nearestGroups_append {few others : List Occurrence} {tag : Text} (hap : Apart few others) :
    nearestGroups (few ++ others) tag = nearestGroups few tag ++ nearestGroups others tag := by
  simp only [nearestGroups, List.filter_append, List.map_append]
  congr 1
  · exact List.map_congr_left fun a ha => by
      rw [nearestGroup_append_left hap (List.mem_of_mem_filter ha)]
  · exact List.map_congr_left fun a ha => by
      rw [nearestGroup_append_right hap (List.mem_of_mem_filter ha)]

mutual
theorem Node.groups_eq_nearest (tag : Text) (place : List Nat) : ∀ node : Node,
    node.groups tag place = nearestGroups (node.occurrences place) tag
  | .text _ => by simp [Node.groups, Node.occurrences, nearestGroups]
  | .element head children => by
    have habove := fun o (ho : o ∈ occurrencesIn place 0 children) => occurrencesIn_above ho head
    have hinner : nearestGroups (occurrencesIn place 0 children) tag =
        ((occurrencesIn place 0 children).filter (·.head.tag = tag)).map fun a =>
          (a, nearestGroup (⟨place, head⟩ :: occurrencesIn place 0 children) tag a) :=
      List.map_congr_left fun a ha => by rw [nearestGroup_cons habove (List.mem_of_mem_filter ha)]
    simp only [Node.groups, Node.occurrences, groupsIn_eq_nearest, hinner]
    split_ifs with htag
    · rw [nearestGroups, List.filter_cons_of_pos (by simpa using htag), List.map_cons,
        nearestGroup_top ⟨place, head⟩ htag habove, outerIn_eq_filter]
    · rw [nearestGroups, List.filter_cons_of_neg (by simpa using htag)]

theorem groupsIn_eq_nearest (tag : Text) (place : List Nat) (first : Nat) : ∀ nodes : List Node,
    groupsIn tag place first nodes = nearestGroups (occurrencesIn place first nodes) tag
  | [] => by simp [groupsIn, occurrencesIn, nearestGroups]
  | node :: rest => by
    have hap : Apart (node.occurrences (place ++ [first])) (occurrencesIn place (first + 1) rest) :=
      fun a ha o ho => occurrences_apart ha ho
    simp only [groupsIn, occurrencesIn]
    rw [node.groups_eq_nearest, groupsIn_eq_nearest, nearestGroups_append hap]
end

end Visualforce.Markup
