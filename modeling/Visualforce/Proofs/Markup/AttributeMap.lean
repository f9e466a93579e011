import Mathlib.Data.List.Induction
import Mathlib.Data.List.Nodup
import Visualforce.Proofs.Markup.Written
import Visualforce.Proofs.Text.Dedupe

/-! # Attribute maps

When no name is repeated the map of a head holds its attributes as they are written. A repeated name
keeps its first place and takes its last value.
-/
namespace Visualforce.Markup

namespace AttributeMap

theorem insert_of_not_mem {map : AttributeMap} {name value : Text} (h : name ∉ map.map (·.1)) :
    map.insert name value = map ++ [(name, value)] := by
  rw [insert, if_neg]
  rw [List.any_eq_true]
  rintro ⟨entry, hentry, heq⟩
  rw [beq_iff_eq] at heq
  exact h (heq ▸ List.mem_map_of_mem hentry)

theorem ofPairs_of_nodup {pairs : List (Text × Text)} (h : (pairs.map (·.1)).Nodup) :
    ofPairs pairs = pairs := by
  have hall : ∀ (map : AttributeMap) (pairs : List (Text × Text)),
      ((map ++ pairs).map (·.1)).Nodup →
      pairs.foldl (fun map pair => AttributeMap.insert map pair.1 pair.2) map = map ++ pairs := by
    intro map pairs
    induction pairs generalizing map with
    | nil => simp
    | cons pair pairs ih =>
      intro hnodup
      have hpair : pair.1 ∉ map.map (·.1) := by
        rw [List.map_append, List.nodup_append] at hnodup
        intro hmem
        exact hnodup.2.2 _ hmem _ List.mem_cons_self rfl
      rw [List.foldl_cons, insert_of_not_mem hpair]
      rw [ih (map ++ [(pair.1, pair.2)]) (by simpa using hnodup)]
      simp
  exact hall [] pairs h

theorem ofPairs_concat (pairs : List (Text × Text)) (pair : Text × Text) :
    ofPairs (pairs ++ [pair]) = (ofPairs pairs).insert pair.1 pair.2 := by
  simp only [ofPairs, List.foldl_append, List.foldl_cons, List.foldl_nil]

theorem any_name_iff {map : AttributeMap} {name : Text} : map.any (·.1 == name) = true ↔
    name ∈ map.map (·.1) := by
  simp only [List.any_eq_true, List.mem_map, beq_iff_eq]

/-- A name that is there already keeps its place, and a new one comes last. -/
theorem map_fst_insert (map : AttributeMap) (name value : Text) :
    (map.insert name value).map (·.1) =
    if name ∈ map.map (·.1) then map.map (·.1) else map.map (·.1) ++ [name] := by
  simp only [insert, any_name_iff]
  split_ifs
  · rw [List.map_map]
    refine List.map_congr_left fun entry _ => ?_
    by_cases hname : entry.1 = name
    · simp [hname]
    · simp [hname]
  · rw [List.map_append, List.map_singleton]

theorem get?_cons (entry : Text × Text) (map : AttributeMap) (name : Text) :
    get? (entry :: map) name = if name = entry.1 then some entry.2 else map.get? name := by
  rw [get?, List.lookup_cons]
  by_cases hname : name = entry.1
  · rw [if_pos hname, beq_iff_eq.mpr hname]
  · rw [if_neg hname, beq_false_of_ne hname]
    rfl

theorem get?_append (map others : AttributeMap) (name : Text) :
    get? (map ++ others) name = (map.get? name).or (get? others name) := List.lookup_append

theorem get?_eq_none {map : AttributeMap} {name : Text} (h : name ∉ map.map (·.1)) :
    map.get? name = none := by
  induction map with
  | nil => rfl
  | cons entry map ih =>
    rw [get?_cons, if_neg (List.ne_of_not_mem_cons h), ih (List.not_mem_of_not_mem_cons h)]

theorem get?_insert_self (map : AttributeMap) (name value : Text) :
    (map.insert name value).get? name = some value := by
  simp only [insert, any_name_iff]
  split_ifs with hmem
  · induction map with
    | nil => cases hmem
    | cons entry map ih =>
      rw [List.map_cons, get?_cons]
      by_cases hentry : entry.1 = name
      · rw [if_pos (beq_iff_eq.mpr hentry), if_pos rfl]
      · simp only [beq_false_of_ne hentry, Bool.false_eq_true, if_false, if_neg (Ne.symm hentry)]
        exact ih ((List.mem_cons.mp hmem).resolve_left (Ne.symm hentry))
  · rw [get?_append, get?_eq_none hmem, get?_cons, if_pos rfl, Option.none_or]

theorem get?_insert_of_ne {other name : Text} (h : other ≠ name) (map : AttributeMap)
    (value : Text) :
    (map.insert name value).get? other = map.get? other := by
  rw [insert]
  split_ifs with hmem
  · clear hmem
    induction map with
    | nil => rfl
    | cons entry map ih =>
      rw [List.map_cons, get?_cons, get?_cons, ih]
      by_cases hentry : entry.1 = name
      · rw [if_pos (beq_iff_eq.mpr hentry), if_neg h, hentry, if_neg h]
      · simp only [beq_false_of_ne hentry, Bool.false_eq_true, if_false]
  · rw [get?_append, get?_cons, if_neg h]
    exact Option.or_none

/-- The names stand where each of them came first. -/
theorem map_fst_ofPairs (pairs : List (Text × Text)) :
    (ofPairs pairs).map (·.1) = dedupe (pairs.map (·.1)) := by
  induction pairs using List.reverseRecOn with
  | nil => rfl
  | append_singleton pairs pair ih =>
    rw [ofPairs_concat, map_fst_insert, List.map_append, List.map_singleton,
      dedupe_append_singleton, ih]
    simp only [mem_dedupe]

/-- A name has the value that was given to it last. -/
theorem get?_ofPairs (pairs : List (Text × Text)) (name : Text) :
    (ofPairs pairs).get? name = pairs.reverse.lookup name := by
  induction pairs using List.reverseRecOn with
  | nil => rfl
  | append_singleton pairs pair ih =>
    have hlast : (pairs ++ [pair]).reverse.lookup name =
        if name = pair.1 then some pair.2 else pairs.reverse.lookup name := by
      rw [List.reverse_append, List.reverse_singleton]
      exact get?_cons pair pairs.reverse name
    rw [ofPairs_concat, hlast]
    split_ifs with hname
    · rw [hname, get?_insert_self]
    · rw [get?_insert_of_ne hname, ih]

end AttributeMap

theorem Head.get?_attributeMap {head : Head} (h : (head.attributes.map (·.name)).Nodup)
    (name : Text) :
    head.attributeMap.get? name = head.get? name := by
  have hnodup : ((head.attributes.map fun a => (a.name, a.value)).map (·.1)).Nodup := by
    rw [List.map_map]
    exact h
  rw [Head.attributeMap, AttributeMap.ofPairs_of_nodup hnodup, AttributeMap.get?, Head.get?]
  induction head.attributes with
  | nil => rfl
  | cons attr attributes ih =>
    rw [List.map_cons, List.lookup_cons, List.find?_cons]
    by_cases heq : attr.name = name
    · rw [heq, beq_self_eq_true]
      rfl
    · rw [beq_false_of_ne heq, beq_false_of_ne (Ne.symm heq)]
      exact ih

end Visualforce.Markup
