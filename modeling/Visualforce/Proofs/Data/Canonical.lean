import Mathlib.Data.Char
import Mathlib.Data.List.Forall2
import Mathlib.Data.List.Lex
import Mathlib.Data.Option.Basic
import Visualforce.Digest.Content
import Visualforce.Proofs.Data.Writing

/-! # Values up to the order of fields

Two values agree when they are equal with the fields of every object taken as a map from names.
Agreement may leave out the fields of some names at every level. The canonical text tells values
apart exactly as far as they do not agree.
-/
namespace Visualforce
namespace Value

section Relations
variable {α β : Type} {r s : α → α → Prop}

theorem forall₂_imp {items others : List α}
    (h : ∀ item ∈ items, ∀ other ∈ others, r item other → s item other)
    (hitems : List.Forall₂ r items others) : List.Forall₂ s items others := by
  induction hitems with
  | nil => exact .nil
  | cons hitem _ ih =>
    exact .cons (h _ List.mem_cons_self _ List.mem_cons_self hitem)
      (ih fun item hitem other hother => h item (.tail _ hitem) other (.tail _ hother))

theorem forall₂_congr {items others : List α}
    (h : ∀ item ∈ items, ∀ other ∈ others, r item other ↔ s item other) :
    List.Forall₂ r items others ↔ List.Forall₂ s items others :=
  ⟨forall₂_imp fun item hitem other hother => (h item hitem other hother).mp,
    forall₂_imp fun item hitem other hother => (h item hitem other hother).mpr⟩

theorem rel_imp {found other : Option α} (h : ∀ a ∈ found, ∀ b ∈ other, r a b → s a b)
    (hfound : Option.Rel r found other) : Option.Rel s found other := by
  cases hfound with
  | none => exact .none
  | some hvalue => exact .some (h _ rfl _ rfl hvalue)

theorem rel_congr {found other : Option α} (h : ∀ a ∈ found, ∀ b ∈ other, r a b ↔ s a b) :
    Option.Rel r found other ↔ Option.Rel s found other :=
  ⟨rel_imp fun a ha b hb => (h a ha b hb).mp, rel_imp fun a ha b hb => (h a ha b hb).mpr⟩

theorem rel_map {relation : β → β → Prop} {change : α → β} {found other : Option α} :
    Option.Rel relation (found.map change) (other.map change) ↔
      Option.Rel (fun a b => relation (change a) (change b)) found other := by
  cases found <;> cases other
  · exact ⟨fun _ => .none, fun _ => .none⟩
  · exact ⟨nofun, nofun⟩
  · exact ⟨nofun, nofun⟩
  · exact ⟨fun | .some h => .some h, fun | .some h => .some h⟩

theorem rel_eq {found other : Option α} : Option.Rel Eq found other ↔ found = other := by
  cases found <;> cases other
  · exact ⟨fun _ => rfl, fun _ => .none⟩
  · exact ⟨nofun, nofun⟩
  · exact ⟨nofun, nofun⟩
  · exact ⟨fun | .some h => congrArg some h, fun h => .some (Option.some.inj h)⟩

end Relations

/-- The values are equal but for the order of fields and for the fields of the ignored names. -/
inductive Agrees (ignored : List Text) : Value → Value → Prop
  | null : Agrees ignored null null
  | bool (b : Bool) : Agrees ignored (bool b) (bool b)
  | int (n : Int) : Agrees ignored (int n) (int n)
  | text (content : Text) : Agrees ignored (text content) (text content)
  | list {items others : List Value} (h : List.Forall₂ (Agrees ignored) items others) :
      Agrees ignored (list items) (list others)
  | object {fields others : List (Text × Value)}
      (h : ∀ name ∉ ignored, Option.Rel (Agrees ignored) (fields.lookup name)
        (others.lookup name)) :
      Agrees ignored (object fields) (object others)

section Agrees
variable {ignored : List Text}

theorem agrees_list {items others : List Value} :
    Agrees ignored (list items) (list others) ↔ List.Forall₂ (Agrees ignored) items others :=
  ⟨fun h => by cases h with | list h => exact h, .list⟩

theorem agrees_object {fields others : List (Text × Value)} : Agrees ignored (object fields)
    (object others) ↔
    ∀ name ∉ ignored, Option.Rel (Agrees ignored) (fields.lookup name) (others.lookup name) :=
  ⟨fun h => by cases h with | object h => exact h, .object⟩

/-- Only the names that occur have to be compared. -/
theorem agrees_of_names {fields others : List (Text × Value)}
    (h : ∀ name ∈ fields.map (·.1) ++ others.map (·.1), name ∉ ignored →
      Option.Rel (Agrees ignored) (fields.lookup name) (others.lookup name)) :
    Agrees ignored (object fields) (object others) := by
  refine .object fun name hname => ?_
  by_cases hmem : name ∈ fields.map (·.1) ++ others.map (·.1)
  · exact h name hmem hname
  · obtain ⟨hfields, hothers⟩ := not_or.mp (mt List.mem_append.mpr hmem)
    rw [lookup_eq_none_of_notMem hfields, lookup_eq_none_of_notMem hothers]
    exact .none

theorem agrees_cons {name : Text} {fields others : List (Text × Value)}
    (h : name ∉ fields.map (·.1))
    (hothers : name ∉ others.map (·.1)) (a b : Value) :
    Agrees ignored (object ((name, a) :: fields)) (object ((name, b) :: others)) ↔
      (name ∉ ignored → Agrees ignored a b) ∧ Agrees ignored (object fields) (object others) := by
  simp only [agrees_object]
  constructor
  · refine fun hagrees => ⟨fun hname => ?_, fun other hother => ?_⟩
    · have hfirst := hagrees name hname
      rw [List.lookup_cons_self, List.lookup_cons_self] at hfirst
      exact Option.rel_some_some.mp hfirst
    · have hfield := hagrees other hother
      by_cases heq : other = name
      · subst heq
        rw [lookup_eq_none_of_notMem h, lookup_eq_none_of_notMem hothers]
        exact .none
      · rwa [List.lookup_cons, List.lookup_cons, beq_false_of_ne heq] at hfield
  · rintro ⟨hfirst, hagrees⟩ other hother
    by_cases heq : other = name
    · subst heq
      rw [List.lookup_cons_self, List.lookup_cons_self]
      exact .some (hfirst hother)
    · rw [List.lookup_cons, List.lookup_cons, beq_false_of_ne heq]
      exact hagrees other hother

theorem agrees_record {fields others : List (String × Value)}
    (hnames : fields.map (·.1) = others.map (·.1))
    (h : (fields.map (·.1)).Nodup) : Agrees ignored (record fields) (record others) ↔
      List.Forall₂ (fun field other => field.1.toList ∉ ignored → Agrees ignored field.2 other.2)
        fields others := by
  induction fields generalizing others with
  | nil =>
    obtain rfl := List.map_eq_nil_iff.mp hnames.symm
    exact ⟨fun _ => .nil, fun _ => .object fun _ _ => .none⟩
  | cons field fields ih =>
    obtain ⟨name, value⟩ := field
    cases others with
    | nil => cases hnames
    | cons other others =>
      obtain ⟨name', value'⟩ := other
      obtain ⟨hname, hothers⟩ := List.cons.inj hnames
      obtain rfl : name = name' := hname
      obtain ⟨hnew, h⟩ := List.nodup_cons.mp h
      have hkey : name.toList ∉ (fields.map (·.1)).map String.toList := by
        rwa [List.mem_map_of_injective fun _ _ => String.toList_inj.mp]
      rw [List.forall₂_cons, ← ih hothers h]
      refine agrees_cons ?_ ?_ value value'
      · rw [names_record]
        exact hkey
      · rw [names_record, ← hothers]
        exact hkey

theorem agrees_text {content other : Text} : Agrees ignored (text content) (text other) ↔
    content = other :=
  ⟨fun | .text _ => rfl, fun | rfl => .text content⟩

theorem agrees_int {m n : Int} : Agrees ignored (int m) (int n) ↔ m = n :=
  ⟨fun | .int _ => rfl, fun | rfl => .int m⟩

theorem agrees_bool {x y : Bool} : Agrees ignored (bool x) (bool y) ↔ x = y :=
  ⟨fun | .bool _ => rfl, fun | rfl => .bool x⟩

theorem agrees_ofText? {content other : Option Text} :
    Agrees ignored (ofText? content) (ofText? other) ↔ content = other := by
  cases content <;> cases other
  · exact ⟨fun _ => rfl, fun _ => .null⟩
  · exact ⟨nofun, nofun⟩
  · exact ⟨nofun, nofun⟩
  · rw [ofText?, ofText?, agrees_text, Option.some.injEq]

theorem agrees_entries {write : Text × Text → Text × Value}
    (hwrite : ∀ field, write field = (field.1, text field.2))
    {entries others : List (Text × Text)} : Agrees ignored (object (entries.map write))
    (object (others.map write)) ↔
      ∀ name ∉ ignored, entries.lookup name = others.lookup name := by
  rw [funext hwrite, agrees_object]
  refine forall_congr' fun name => imp_congr_right fun _ => ?_
  rw [lookup_map, lookup_map, rel_map, ← rel_eq]
  exact rel_congr fun _ _ _ _ => agrees_text

theorem agrees_map {α : Type} {toValue : α → Value} {items others : List α} :
    Agrees ignored (list (items.map toValue)) (list (others.map toValue)) ↔
      List.Forall₂ (fun item other => Agrees ignored (toValue item) (toValue other))
        items others := by
  rw [agrees_list, List.forall₂_map_left_iff, List.forall₂_map_right_iff]

theorem agrees_ofTexts {contents others : List Text} :
    Agrees ignored (ofTexts contents) (ofTexts others) ↔ contents = others := by
  simp only [ofTexts, agrees_map, agrees_text, List.forall₂_eq_eq_eq]

end Agrees

theorem Agrees.mono {ignored more : List Text} (hmore : ignored ⊆ more) (a : Value) :
    ∀ {b : Value}, Agrees ignored a b → Agrees more a b := by
  induction a using Value.induct with
  | null => rintro b ⟨⟩; exact .null
  | bool x => rintro b ⟨⟩; exact .bool x
  | int n => rintro b ⟨⟩; exact .int n
  | text content => rintro b ⟨⟩; exact .text content
  | list items ih =>
    rintro b (_ | _ | _ | _ | h | _)
    exact .list (forall₂_imp (fun item hitem _ _ => ih item hitem) h)
  | object fields ih =>
    rintro b (_ | _ | _ | _ | _ | h)
    refine .object fun name hname => rel_imp (fun value hvalue _ _ => ?_)
      (h name fun hmem => hname (hmore hmem))
    exact ih (name, value) (mem_of_lookup_eq_some hvalue)

theorem fieldLe_iff {a b : Text × Value} : fieldLe a b ↔ a.1 ≤ b.1 := by
  have hlex : (fun c d : Char => decide (c.toNat < d.toNat) = true) = (· < ·) := by
    funext c d
    exact decide_eq_true_eq
  rw [fieldLe, List.lex_eq_decide_lex, Bool.not_eq_true', decide_eq_false_iff_not, hlex,
    List.lex_lt]
  exact not_lt

theorem pairwise_sort (fields : List (Text × Value)) :
    (fields.mergeSort fieldLe).Pairwise (·.1 ≤ ·.1) := by
  have htrans : ∀ a b c : Text × Value, fieldLe a b → fieldLe b c → fieldLe a c := by
    intro a b c hab hbc
    exact fieldLe_iff.mpr ((fieldLe_iff.mp hab).trans (fieldLe_iff.mp hbc))
  have htotal : ∀ a b : Text × Value, fieldLe a b || fieldLe b a := by
    intro a b
    rw [Bool.or_eq_true, fieldLe_iff, fieldLe_iff]
    exact le_total a.1 b.1
  exact (List.pairwise_mergeSort htrans htotal fields).imp fieldLe_iff.mp

/-- Sorting erases the order of fields with names of their own, and nothing else. -/
theorem sort_eq_iff {fields others : List (Text × Value)} (h : (fields.map (·.1)).Nodup)
    (hothers : (others.map (·.1)).Nodup) :
    fields.mergeSort fieldLe = others.mergeSort fieldLe ↔ ∀ name, fields.lookup name =
      others.lookup name := by
  constructor
  · intro heq name
    rw [← lookup_eq_of_perm ((List.mergeSort_perm fields fieldLe).map _ |>.nodup_iff.mpr h)
      (List.mergeSort_perm fields fieldLe) name, heq]
    exact lookup_eq_of_perm ((List.mergeSort_perm others fieldLe).map _ |>.nodup_iff.mpr hothers)
      (List.mergeSort_perm others fieldLe) name
  · intro hlookup
    have hperm := perm_of_lookup_eq h hothers hlookup
    refine List.Perm.eq_of_pairwise ?_ (pairwise_sort fields) (pairwise_sort others)
      ((List.mergeSort_perm fields fieldLe).trans
        (hperm.trans (List.mergeSort_perm others fieldLe).symm))
    intro a b ha hb hab hba
    have hname : a.1 = b.1 := le_antisymm hab hba
    have ha := (lookup_eq_some_iff_mem hothers).mpr (hperm.mem_iff.mp (List.mem_mergeSort.mp ha))
    have hb := (lookup_eq_some_iff_mem hothers).mpr (List.mem_mergeSort.mp hb)
    rw [hname, hb] at ha
    exact Prod.ext hname (Option.some.inj ha).symm

theorem sortItems_eq (items : List Value) : sortItems items = items.map sortFields := by
  induction items with
  | nil => rfl
  | cons item items ih => rw [sortItems, ih, List.map_cons]

theorem sortEntries_eq (fields : List (Text × Value)) :
    sortEntries fields = fields.map fun field => (field.1, sortFields field.2) := by
  induction fields with
  | nil => rfl
  | cons field fields ih => rw [sortEntries, ih, List.map_cons]

theorem names_sortEntries (fields : List (Text × Value)) : (sortEntries fields).map (·.1) =
    fields.map (·.1) := by
  rw [sortEntries_eq, List.map_map]
  rfl

theorem sortFields_eq_iff (a : Value) : ∀ {b : Value}, a.HasDistinctNames → b.HasDistinctNames →
    (a.sortFields = b.sortFields ↔ Agrees [] a b) := by
  induction a using Value.induct with
  | list items ih =>
    intro b ha hb
    cases b with
    | list others =>
      rw [hasDistinctNames_list] at ha hb
      rw [sortFields, sortFields, list.injEq, sortItems_eq, sortItems_eq, ← List.forall₂_eq_eq_eq,
        List.forall₂_map_left_iff, List.forall₂_map_right_iff, agrees_list]
      exact forall₂_congr fun item hitem other hother => ih item hitem (ha item hitem)
        (hb other hother)
    | _ => exact ⟨nofun, nofun⟩
  | object fields ih =>
    intro b ha hb
    cases b with
    | object others =>
      obtain ⟨hnames, ha⟩ := hasDistinctNames_object.mp ha
      obtain ⟨hothers, hb⟩ := hasDistinctNames_object.mp hb
      rw [sortFields, sortFields, object.injEq,
        sort_eq_iff (names_sortEntries fields ▸ hnames) (names_sortEntries others ▸ hothers),
        agrees_object]
      refine forall_congr' fun name => ?_
      rw [sortEntries_eq, sortEntries_eq, lookup_map, lookup_map, ← rel_eq, rel_map,
        forall_prop_of_true List.not_mem_nil]
      refine rel_congr fun value hvalue other hother => ?_
      have hmem := (lookup_eq_some_iff_mem hnames).mp hvalue
      exact ih _ hmem (ha _ hmem) (hb _ ((lookup_eq_some_iff_mem hothers).mp hother))
    | _ => exact ⟨nofun, nofun⟩
  | null =>
    intro b _ _
    cases b with
    | null => exact ⟨fun _ => .null, fun _ => rfl⟩
    | _ => exact ⟨nofun, nofun⟩
  | bool x =>
    intro b _ _
    cases b with
    | bool y => exact ⟨fun | rfl => .bool x, fun | .bool _ => rfl⟩
    | _ => exact ⟨nofun, nofun⟩
  | int m =>
    intro b _ _
    cases b with
    | int n => exact ⟨fun | rfl => .int m, fun | .int _ => rfl⟩
    | _ => exact ⟨nofun, nofun⟩
  | text content =>
    intro b _ _
    cases b with
    | text other => exact ⟨fun | rfl => .text content, fun | .text _ => rfl⟩
    | _ => exact ⟨nofun, nofun⟩

theorem normalizeItems_eq (items : List Value) : normalizeItems items = items.map normalize := by
  induction items with
  | nil => rfl
  | cons item items ih => rw [normalizeItems, ih, List.map_cons]

theorem normalizeFields_eq (fields : List (Text × Value)) : normalizeFields fields =
    (fields.filter fun field => !volatileFields.contains field.1).map fun field =>
      (field.1, normalize field.2) := by
  induction fields with
  | nil => rfl
  | cons field fields ih =>
    obtain ⟨name, value⟩ := field
    rw [normalizeFields, ih, List.filter_cons]
    cases volatileFields.contains name <;> rfl

theorem lookup_normalizeFields {name : Text} (hname : name ∉ volatileFields)
    (fields : List (Text × Value)) :
    (normalizeFields fields).lookup name = (fields.lookup name).map normalize := by
  have hkeeps : (!volatileFields.contains name) = true := by simpa using hname
  rw [normalizeFields_eq, lookup_map, lookup_filter (!volatileFields.contains ·), if_pos hkeeps]

theorem lookup_normalizeFields_of_mem {name : Text} (hname : name ∈ volatileFields)
    (fields : List (Text × Value)) : (normalizeFields fields).lookup name = none := by
  have hdrops : ¬(!volatileFields.contains name) = true := by simpa using hname
  rw [normalizeFields_eq, lookup_map, lookup_filter (!volatileFields.contains ·), if_neg hdrops,
    Option.map_none]

/-- Without volatile fields values agree as far as they agree but for these. -/
theorem agrees_normalize (a : Value) : ∀ {b : Value},
    Agrees [] a.normalize b.normalize ↔ Agrees volatileFields a b := by
  induction a using Value.induct with
  | list items ih =>
    intro b
    cases b with
    | list others =>
      rw [normalize, normalize, agrees_list, agrees_list, normalizeItems_eq, normalizeItems_eq,
        List.forall₂_map_left_iff, List.forall₂_map_right_iff]
      exact forall₂_congr fun item hitem _ _ => ih item hitem
    | _ => exact ⟨nofun, nofun⟩
  | object fields ih =>
    intro b
    cases b with
    | object others =>
      rw [normalize, normalize, agrees_object, agrees_object]
      refine forall_congr' fun name => ?_
      rw [forall_prop_of_true List.not_mem_nil]
      by_cases hname : name ∈ volatileFields
      · rw [lookup_normalizeFields_of_mem hname, lookup_normalizeFields_of_mem hname]
        exact ⟨fun _ hnot => absurd hname hnot, fun _ => .none⟩
      · rw [lookup_normalizeFields hname, lookup_normalizeFields hname, rel_map,
          forall_prop_of_true hname]
        exact rel_congr fun value hvalue _ _ => ih (name, value) (mem_of_lookup_eq_some hvalue)
    | _ => exact ⟨nofun, nofun⟩
  | null =>
    intro b
    cases b with
    | null => exact ⟨fun _ => .null, fun _ => .null⟩
    | _ => exact ⟨nofun, nofun⟩
  | bool x =>
    intro b
    cases b with
    | bool y => exact ⟨fun | .bool _ => .bool x, fun | .bool _ => .bool x⟩
    | _ => exact ⟨nofun, nofun⟩
  | int m =>
    intro b
    cases b with
    | int n => exact ⟨fun | .int _ => .int m, fun | .int _ => .int m⟩
    | _ => exact ⟨nofun, nofun⟩
  | text content =>
    intro b
    cases b with
    | text other => exact ⟨fun | .text _ => .text content, fun | .text _ => .text content⟩
    | _ => exact ⟨nofun, nofun⟩

theorem hasDistinctNames_normalize (value : Value) (h : value.HasDistinctNames) :
    value.normalize.HasDistinctNames := by
  induction value using Value.induct with
  | list items ih =>
    rw [hasDistinctNames_list] at h
    rw [normalize, hasDistinctNames_list, normalizeItems_eq]
    exact List.forall_mem_map.mpr fun item hitem => ih item hitem (h item hitem)
  | object fields ih =>
    obtain ⟨hnames, hvalues⟩ := hasDistinctNames_object.mp h
    rw [normalize, hasDistinctNames_object, normalizeFields_eq, List.map_map]
    refine ⟨(List.filter_sublist.map _).nodup hnames, List.forall_mem_map.mpr fun field hfield =>
      ?_⟩
    have hmem := List.mem_of_mem_filter hfield
    exact ih field hmem (hvalues field hmem)
  | _ => trivial

theorem normalize_normalize (value : Value) : value.normalize.normalize = value.normalize := by
  induction value using Value.induct with
  | list items ih =>
    rw [normalize, normalize, normalizeItems_eq, normalizeItems_eq, List.map_map, list.injEq]
    exact List.map_congr_left ih
  | object fields ih =>
    rw [normalize, normalize, object.injEq, normalizeFields_eq, normalizeFields_eq, List.filter_map,
      List.map_map, List.filter_filter]
    change List.map _ (List.filter (fun field => !volatileFields.contains field.1 && _) fields) = _
    simp only [Bool.and_self]
    refine List.map_congr_left fun field hfield => ?_
    exact congrArg (Prod.mk field.1) (ih field (List.mem_of_mem_filter hfield))
  | _ => rfl

end Value

namespace Digest
open Value

theorem digestedText_eq_iff {a b : Value} (ha : a.HasDistinctNames) (hb : b.HasDistinctNames) :
    digestedText a = digestedText b ↔ Agrees [] a.normalize b.normalize := by
  rw [digestedText, digestedText, canonicalText, canonicalText, write_compact_inj]
  exact sortFields_eq_iff _ (hasDistinctNames_normalize a ha) (hasDistinctNames_normalize b hb)

theorem digestedText_eq_iff_agrees {a b : Value} (ha : a.HasDistinctNames)
    (hb : b.HasDistinctNames) :
    digestedText a = digestedText b ↔ Agrees volatileFields a b :=
  (digestedText_eq_iff ha hb).trans (agrees_normalize a)

/-- The digested text is a canonical form of what a value holds besides its volatile fields: it is
the same for two values exactly when they agree without these fields, in whatever order the fields
are at any depth. -/
theorem digestedText_canonical {a b : Value} (ha : a.HasDistinctNames) (hb : b.HasDistinctNames) :
    (digestedText a = digestedText b ↔ Agrees [] a.normalize b.normalize) ∧
    (digestedText a = digestedText b ↔ Agrees volatileFields a b) ∧
    (Agrees [] a b → digestedText a = digestedText b) ∧ a.normalize.normalize = a.normalize :=
  ⟨digestedText_eq_iff ha hb, digestedText_eq_iff_agrees ha hb,
    fun h => (digestedText_eq_iff_agrees ha hb).mpr (h.mono (List.nil_subset _)),
    normalize_normalize a⟩

/-- Other orders of fields and volatile fields in an inner object make no difference; a truth value
for a number does. -/
theorem digestedText_nestedObject :
    let inner := object [(['x'], text ['"', Char.ofNat 0x1F600]), (['y'], null)]
    let noisy := object [(['y'], null), ("warnings".toList, int 7),
      (['x'], text ['"', Char.ofNat 0x1F600])]
    let value := object [(['a'], inner), (['b'], list [int (-1), bool true])]
    digestedText (object [(['b'], list [int (-1), bool true]), (['a'], noisy)]) =
      digestedText value ∧
      digestedText (object [(['b'], list [int (-1), int 1]), (['a'], inner)]) ≠
        digestedText value := by
  intro inner noisy value
  have hinner : inner.HasDistinctNames := ⟨by decide, trivial, trivial, trivial⟩
  have hnoisy : noisy.HasDistinctNames := ⟨by decide, trivial, trivial, trivial, trivial⟩
  have hvalue : value.HasDistinctNames := ⟨by decide, hinner, ⟨trivial, trivial, trivial⟩, trivial⟩
  have hfirst : (object [(['b'], list [int (-1), bool true]), (['a'], noisy)]).HasDistinctNames :=
    ⟨by decide, ⟨trivial, trivial, trivial⟩, hnoisy, trivial⟩
  have hother : (object [(['b'], list [int (-1), int 1]), (['a'], inner)]).HasDistinctNames :=
    ⟨by decide, ⟨trivial, trivial, trivial⟩, hinner, trivial⟩
  constructor
  · refine (digestedText_canonical hfirst hvalue).2.1.mpr ?_
    have hnoise : Agrees volatileFields noisy inner := by
      refine agrees_of_names ?_
      rintro name (_ | ⟨_, _ | ⟨_, _ | ⟨_, _ | ⟨_, _ | ⟨_, ⟨⟩⟩⟩⟩⟩⟩) hname
      · exact .some .null
      · exact absurd (by decide) hname
      · exact .some (.text _)
      · exact .some (.text _)
      · exact .some .null
    refine agrees_of_names ?_
    rintro name (_ | ⟨_, _ | ⟨_, _ | ⟨_, _ | ⟨_, ⟨⟩⟩⟩⟩⟩) -
    · exact .some (.list (.cons (.int _) (.cons (.bool _) .nil)))
    · exact .some hnoise
    · exact .some hnoise
    · exact .some (.list (.cons (.int _) (.cons (.bool _) .nil)))
  · intro heq
    have hagrees := (digestedText_canonical hother hvalue).2.1.mp heq
    have hfield := agrees_object.mp hagrees ['b'] (by decide)
    rcases hfield with ⟨h⟩
    rcases agrees_list.mp h with _ | ⟨-, _ | ⟨⟨⟩, -⟩⟩

end Digest
end Visualforce
