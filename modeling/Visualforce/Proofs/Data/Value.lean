import Mathlib.Data.List.Nodup
import Visualforce.Data.Value

/-! # The shape of values

What holds of a list when it holds of its items, and of an object when it holds of the values of its
fields, holds of every value. The names of an object are told apart when no two of its fields have
the same one; then it is the same to find a field by its name and to meet it in the list.
-/
namespace Visualforce

section Lookup
variable {α β : Type} {fields others : List (Text × α)} {name : Text} {value : α}

theorem mem_of_lookup_eq_some (h : fields.lookup name = some value) : (name, value) ∈ fields := by
  obtain ⟨front, back, rfl, -⟩ := List.lookup_eq_some_iff.mp h
  exact List.mem_append_right front List.mem_cons_self

theorem lookup_eq_none_of_notMem (h : name ∉ fields.map (·.1)) : fields.lookup name = none :=
  List.lookup_eq_none_iff.mpr fun field hfield =>
    bne_iff_ne.mpr fun heq => h (List.mem_map.mpr ⟨field, hfield, heq.symm⟩)

theorem lookup_eq_some_iff_mem (h : (fields.map (·.1)).Nodup) :
    fields.lookup name = some value ↔ (name, value) ∈ fields := by
  induction fields with
  | nil => simp
  | cons field fields ih =>
    obtain ⟨other, first⟩ := field
    obtain ⟨hnew, hnodup⟩ := List.nodup_cons.mp h
    rw [List.lookup_cons, List.mem_cons, ← ih hnodup]
    by_cases hname : name = other
    · subst hname
      simp [lookup_eq_none_of_notMem hnew, eq_comm]
    · simp [hname, beq_false_of_ne hname]

/-- Fields with names of their own are found alike in any order. -/
theorem lookup_eq_of_perm (h : (fields.map (·.1)).Nodup) (hperm : fields.Perm others)
    (name : Text) :
    fields.lookup name = others.lookup name := by
  have hother : (others.map (·.1)).Nodup := (hperm.map _).nodup_iff.mp h
  refine Option.ext fun value => ?_
  rw [lookup_eq_some_iff_mem h, lookup_eq_some_iff_mem hother, hperm.mem_iff]

/-- Fields that are found alike are the same up to their order. -/
theorem perm_of_lookup_eq (h : (fields.map (·.1)).Nodup) (hothers : (others.map (·.1)).Nodup)
    (hlookup : ∀ name, fields.lookup name = others.lookup name) : fields.Perm others := by
  refine (List.perm_ext_iff_of_nodup h.of_map hothers.of_map).mpr fun field => ?_
  rw [← lookup_eq_some_iff_mem h, ← lookup_eq_some_iff_mem hothers, hlookup]

theorem lookup_map {κ : Type} [BEq κ] (change : α → β) (fields : List (κ × α)) (name : κ) :
    (fields.map fun field => (field.1, change field.2)).lookup name =
      (fields.lookup name).map change := by
  induction fields with
  | nil => rfl
  | cons field fields ih =>
    rw [List.map_cons, List.lookup_cons, List.lookup_cons, ih]
    cases name == field.1 <;> rfl

theorem lookup_filter (keeps : Text → Bool) (fields : List (Text × α)) (name : Text) :
    (fields.filter fun field => keeps field.1).lookup name = if keeps name then fields.lookup name
      else none := by
  induction fields with
  | nil => simp
  | cons field fields ih =>
    obtain ⟨other, first⟩ := field
    cases hname : name == other with
    | false =>
      rw [List.lookup_cons, hname]
      by_cases hkeeps : keeps other
      · rw [List.filter_cons, if_pos hkeeps, List.lookup_cons, hname]
        exact ih
      · rw [List.filter_cons, if_neg hkeeps]
        exact ih
    | true =>
      obtain rfl := beq_iff_eq.mp hname
      by_cases hkeeps : keeps name
      · rw [List.filter_cons, if_pos hkeeps, if_pos hkeeps, List.lookup_cons_self,
          List.lookup_cons_self]
      · rw [List.filter_cons, if_neg hkeeps, ih, if_neg hkeeps, if_neg hkeeps]

end Lookup

namespace Value

theorem induct {P : Value → Prop} (null : P null) (bool : ∀ b, P (bool b)) (int : ∀ n, P (int n))
    (text : ∀ content, P (text content)) (list : ∀ items, (∀ item ∈ items, P item) → P (list items))
    (object : ∀ fields, (∀ field ∈ fields, P field.2) → P (object fields)) (value : Value) :
    P value :=
  @Value.rec P (fun items => ∀ item ∈ items, P item) (fun fields => ∀ field ∈ fields, P field.2)
    (fun field => P field.2) null bool int text list object (List.forall_mem_nil _)
    (fun _ _ hitem hitems => List.forall_mem_cons.mpr ⟨hitem, hitems⟩) (List.forall_mem_nil _)
    (fun _ _ hfield hfields => List.forall_mem_cons.mpr ⟨hfield, hfields⟩)
      (fun _ _ hvalue => hvalue) value

mutual
/-- No object in the value has two fields of one name. -/
def HasDistinctNames : Value → Prop
  | null => True
  | bool _ => True
  | int _ => True
  | text _ => True
  | list items => ItemsHaveDistinctNames items
  | object fields => (fields.map (·.1)).Nodup ∧ FieldsHaveDistinctNames fields

def ItemsHaveDistinctNames : List Value → Prop
  | [] => True
  | item :: items => item.HasDistinctNames ∧ ItemsHaveDistinctNames items

def FieldsHaveDistinctNames : List (Text × Value) → Prop
  | [] => True
  | (_, value) :: fields => value.HasDistinctNames ∧ FieldsHaveDistinctNames fields
end

theorem itemsHaveDistinctNames_iff {items : List Value} :
    ItemsHaveDistinctNames items ↔ ∀ item ∈ items, item.HasDistinctNames := by
  induction items with
  | nil => simp [ItemsHaveDistinctNames]
  | cons item items ih => rw [ItemsHaveDistinctNames, ih, List.forall_mem_cons]

theorem fieldsHaveDistinctNames_iff {fields : List (Text × Value)} :
    FieldsHaveDistinctNames fields ↔ ∀ field ∈ fields, field.2.HasDistinctNames := by
  induction fields with
  | nil => simp [FieldsHaveDistinctNames]
  | cons field fields ih => rw [FieldsHaveDistinctNames, ih, List.forall_mem_cons]

theorem hasDistinctNames_list {items : List Value} :
    (list items).HasDistinctNames ↔ ∀ item ∈ items, item.HasDistinctNames := by
  rw [HasDistinctNames, itemsHaveDistinctNames_iff]

theorem hasDistinctNames_object {fields : List (Text × Value)} : (object fields).HasDistinctNames ↔
    (fields.map (·.1)).Nodup ∧ ∀ field ∈ fields, field.2.HasDistinctNames := by
  rw [HasDistinctNames, fieldsHaveDistinctNames_iff]

theorem names_record (fields : List (String × Value)) :
    (fields.map fun (name, value) => (name.toList, value)).map (·.1) =
      (fields.map (·.1)).map String.toList := by
  rw [List.map_map, List.map_map]
  rfl

theorem hasDistinctNames_record {fields : List (String × Value)} (h : (fields.map (·.1)).Nodup) :
    (record fields).HasDistinctNames ↔ ∀ field ∈ fields, field.2.HasDistinctNames := by
  rw [record, hasDistinctNames_object, List.forall_mem_map, names_record]
  exact and_iff_right (h.map fun _ _ => String.toList_inj.mp)

theorem hasDistinctNames_ofText? (content : Option Text) : (ofText? content).HasDistinctNames := by
  cases content <;> trivial

theorem hasDistinctNames_ofTexts (contents : List Text) : (ofTexts contents).HasDistinctNames := by
  rw [ofTexts, hasDistinctNames_list, List.forall_mem_map]
  exact fun _ _ => trivial

end Value
end Visualforce
