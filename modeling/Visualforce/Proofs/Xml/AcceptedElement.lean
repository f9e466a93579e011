import Mathlib.Data.List.Nodup
import Visualforce.Xml.Document
import Visualforce.Proofs.Xml.Accepted

/-! # Elements that are accepted

The elements of a document that is read without a fault are those that its start tags open, in the
same order. Each name is expanded by a declaration of one of these tags, and no attribute is written
twice in a tag.
-/
namespace Visualforce.Xml
open Markup (LooseTag LooseAttribute Writes Cover sectionOpening sectionClosing)

variable {entities : Entities} {opening text rest : Text} {tag : LooseTag}
    {declared : List (Option Text × Text)}

/-- A name of a document. -/
def IsName (text : Text) : Prop := ∃ name : WrittenName, name.IsRead ∧ text = name.text

theorem spelled_text {name : WrittenName} (h : name.IsRead) : spelled name.text = name := by
  have hcolon : ∀ {run : Text}, isNameRun run → ':' ∉ run :=
    fun hrun => not_mem_of_isNameRun hrun (by decide)
  obtain ⟨qualifier, base⟩ := name
  cases qualifier with
  | none =>
    rw [spelled, WrittenName.text, if_neg]
    rw [List.contains_iff_mem]
    exact hcolon h.base
  | some qualifier =>
    have hall : ∀ c ∈ qualifier, (c != ':') = true := by
      intro c hc
      rw [bne_iff_ne]
      rintro rfl
      exact hcolon (h.qualifier qualifier rfl) hc
    rw [spelled, WrittenName.text, if_pos (by simp), List.takeWhile_append_of_pos hall,
      List.dropWhile_append_of_pos hall]
    simp

theorem IsName.isRead (h : IsName text) : (spelled text).IsRead ∧ (spelled text).text = text := by
  obtain ⟨name, hname, rfl⟩ := h
  rw [spelled_text hname]
  exact ⟨hname, rfl⟩

end Visualforce.Xml

namespace Visualforce.Markup
open Xml (WrittenName spelled)

/-- What the attribute declares, if it is a declaration: a qualifier, or the default. -/
def LooseAttribute.binds? (attr : LooseAttribute) : Option (Option Text) :=
  (spelled attr.name).binds?

namespace LooseTag

def declared (tag : LooseTag) : List (Option Text × Text) :=
  tag.attributes.filterMap fun attr => attr.binds?.map (·, attr.value)

/-- The attributes that are not declarations. -/
def ownAttributes (tag : LooseTag) : List LooseAttribute := tag.attributes.filter (·.binds?.isNone)

/-- The other tag has the same name, and attributes of the same names but for declarations. -/
def IsLike (tag other : LooseTag) : Prop :=
  tag.name = other.name ∧ tag.ownAttributes.map (·.name) = other.ownAttributes.map (·.name)

theorem IsLike.refl (tag : LooseTag) : tag.IsLike tag := ⟨rfl, rfl⟩

/-- The names that a tag writes, its own and those of all its attributes. -/
def names (tag : LooseTag) : List Text := tag.name :: tag.attributes.map (·.name)

theorem IsLike.of_names {tag other : LooseTag} (h : tag.names = other.names) :
    tag.IsLike other := by
  obtain ⟨hname, hattributes⟩ := List.cons_eq_cons.mp h
  have hown : ∀ tag : LooseTag, tag.ownAttributes.map (·.name) =
      (tag.attributes.map (·.name)).filter fun name => (spelled name).binds?.isNone := by
    intro tag
    rw [ownAttributes, List.filter_map]
    rfl
  exact ⟨hname, by rw [hown, hown, hattributes]⟩

end LooseTag
end Visualforce.Markup

namespace Visualforce.Xml
open Markup (LooseTag LooseAttribute Writes Cover sectionOpening sectionClosing)

/-- The scope holds what is declared, with the values of the declarations. -/
def Scope.ComesFrom (declared : List (Option Text × Text)) (scope : Scope) : Prop :=
  ∀ entry ∈ scope, ∃ raw, (entry.1, raw) ∈ declared ∧ (IsLiteral raw → entry.2 = raw)

/-- The name is expanded by a declaration of its qualifier or of the default. A name without a
qualifier may be in no namespace. -/
def Expands (declared : List (Option Text × Text)) (written : WrittenName) (name : Name) : Prop :=
  name.base = written.base ∧ (name.space = none ∧ written.qualifier = none ∨
    ∃ raw, (written.qualifier, raw) ∈ declared ∧ (IsLiteral raw → name.space = some raw))

/-- A start tag that a document may have, with its names. -/
structure IsAccepted (tag : LooseTag) : Prop where
  written : tag.IsWritten
  bracket : '<' ∉ tag.source.tail
  name : IsName tag.name
  attributes : ∀ attr ∈ tag.attributes, IsName attr.name ∧ ∃ assigned, attr.assigned =
    some assigned ∧
    assigned.quote ≠ none
  distinct : (tag.attributes.map (·.name)).Nodup

/-- A start tag and the element that it opens, with what is declared around it and in it. -/
structure Opens (declared : List (Option Text × Text)) (tag : LooseTag)
    (head : Name × List (Name × Text)) : Prop where
  accepted : IsAccepted tag
  name : Expands declared (spelled tag.name) head.1
  attributes : List.Forall₂ (fun attr (entry : Name × Text) => Expands declared (spelled attr.name)
    entry.1)
    tag.ownAttributes head.2

theorem resolveValue_literal {raw value : Text}
    (h : resolveValue entities opening (raw.map .char) = .ok value) :
    value = raw := by
  have hstands : List.Forall₂ Stands raw (raw.map .char) :=
    List.forall₂_map_right_iff.mpr (List.forall₂_same.mpr fun c _ => .char c)
  rw [resolveValue_of_stands entities opening hstands] at h
  exact (Except.ok.inj h).symm

theorem binds?_of_isReadAs {attr : LooseAttribute} {written : WrittenAttribute}
    (h : IsReadAs attr written) :
    attr.binds? = written.name.binds? := by
  rw [LooseAttribute.binds?, h.name, spelled_text h.isRead]

theorem value_of_isReadAs {attr : LooseAttribute} {written : WrittenAttribute} {value : Text}
    (h : IsReadAs attr written)
    (hvalue : resolveValue entities opening written.value = .ok value)
    (hliteral : IsLiteral attr.value) :
    value = attr.value := by
  obtain ⟨assigned, hassigned, -, hraw⟩ := h.value
  rw [LooseAttribute.value, hassigned] at hliteral ⊢
  rw [hraw hliteral] at hvalue
  exact resolveValue_literal hvalue

/-- Declarations go to the scope, and the other attributes stay in their order. -/
theorem separate_eq_ok {loose : List LooseAttribute} {attributes : List WrittenAttribute}
    {seen : List WrittenName}
    {scope inner : Scope} {others all : List (WrittenName × Text)}
    (hread : List.Forall₂ IsReadAs loose attributes)
    (h : separate entities opening attributes seen scope others = .ok (inner, all)) :
    ∃ own, all = others.reverse ++ own ∧
      own.map (·.1) = (loose.filter (·.binds?.isNone)).map (fun attr => spelled attr.name) ∧
      (loose.map fun attr => spelled attr.name).Nodup ∧
      (∀ attr ∈ loose, spelled attr.name ∉ seen) ∧
      ∀ declared, scope.ComesFrom declared →
        (loose.filterMap fun attr => attr.binds?.map (·, attr.value)) ⊆ declared →
          inner.ComesFrom declared := by
  induction hread generalizing seen scope others with
  | nil =>
    cases h
    exact ⟨[], by simp, rfl, List.nodup_nil, by simp, fun _ hscope _ => hscope⟩
  | @cons attr written loose attributes hattr _ ih =>
    have hname : spelled attr.name = written.name := by rw [hattr.name, spelled_text hattr.isRead]
    have hfresh : ∀ {seen : List WrittenName}, (loose.map fun attr => spelled attr.name).Nodup →
        (∀ other ∈ loose, spelled other.name ∉ written.name :: seen) →
          ((attr :: loose).map fun attr => spelled attr.name).Nodup := by
      intro seen hnodup hseen
      rw [List.map_cons, List.nodup_cons, hname]
      refine ⟨fun hmem => ?_, hnodup⟩
      obtain ⟨other, hother, heq⟩ := List.mem_map.mp hmem
      exact hseen other hother (heq ▸ List.mem_cons_self)
    have hrest : ∀ {seen : List WrittenName}, written.name ∉ seen →
        (∀ other ∈ loose, spelled other.name ∉ written.name :: seen) →
          ∀ other ∈ attr :: loose, spelled other.name ∉ seen := by
      intro seen hnew hseen
      refine List.forall_mem_cons.mpr ⟨hname ▸ hnew, fun other hother hmem => ?_⟩
      exact hseen other hother (List.mem_cons_of_mem _ hmem)
    rw [separate] at h
    split_ifs at h with hseen
    · exact absurd h (fail_ne_ok _ _ _)
    · rw [List.contains_iff_mem] at hseen
      rw [bind_eq_ok] at h
      obtain ⟨value, hvalue, h⟩ := h
      have hbinds := binds?_of_isReadAs hattr
      split at h
      · rename_i qualifier hqualifier
        rw [hqualifier] at hbinds
        split at h
        · exact absurd h (fail_ne_ok _ _ _)
        · obtain ⟨own, hall, hown, hnodup, hnew, hscope⟩ := ih h
          refine ⟨own, hall, ?_, hfresh hnodup hnew, hrest hseen hnew,
            fun declared hcomes hsubset => ?_⟩
          · rw [hown, List.filter_cons_of_neg (by simp [hbinds])]
          · rw [List.filterMap_cons_some (by rw [hbinds]; rfl), List.cons_subset] at hsubset
            refine hscope declared (List.forall_mem_cons.mpr ⟨⟨attr.value, hsubset.1, ?_⟩, hcomes⟩)
              hsubset.2
            exact value_of_isReadAs hattr hvalue
      · rename_i hnone
        rw [hnone] at hbinds
        obtain ⟨own, hall, hown, hnodup, hnew, hscope⟩ := ih h
        refine ⟨(written.name, value) :: own, by
          simp [hall], ?_, hfresh hnodup hnew, hrest hseen hnew, fun declared hcomes hsubset => ?_⟩
        · rw [List.filter_cons_of_pos (by simp [hbinds]), List.map_cons, List.map_cons, hown, hname]
        · rw [List.filterMap_cons_none (by rw [hbinds]; rfl)] at hsubset
          exact hscope declared hcomes hsubset

theorem exists_declared_of_lookup {scope : Scope} {qualifier : Option Text} {space : Text}
    (hscope : scope.ComesFrom declared) (h : scope.lookup qualifier = some space) :
    ∃ raw, (qualifier, raw) ∈ declared ∧ (IsLiteral raw → space = raw) := by
  obtain ⟨first, last, rfl, -⟩ := List.lookup_eq_some_iff.mp h
  exact hscope (qualifier, space) (by simp)

theorem expandAttributes_eq_ok {scope : Scope} {others : List (WrittenName × Text)}
    {expanded all : List (Name × Text)}
    (h : expandAttributes opening scope others expanded = .ok all) :
    ∃ more, all = expanded.reverse ++ more ∧
      ∀ declared, scope.ComesFrom declared →
        List.Forall₂ (fun other entry => Expands declared other.1 entry.1) others more := by
  induction others generalizing expanded with
  | nil =>
    cases h
    exact ⟨[], by simp, fun _ _ => .nil⟩
  | cons other others ih =>
    obtain ⟨name, value⟩ := other
    rw [expandAttributes] at h
    split at h
    · rename_i hqualifier
      obtain ⟨more, rfl, hmore⟩ := ih h
      exact ⟨(⟨none, name.base⟩, value) :: more, by simp,
        fun declared hscope => .cons ⟨rfl, .inl ⟨rfl, hqualifier⟩⟩ (hmore declared hscope)⟩
    · rename_i qualifier hqualifier
      split at h
      · exact absurd h (fail_ne_ok _ _ _)
      · rename_i space hspace
        dsimp only at h
        split_ifs at h
        · exact absurd h (fail_ne_ok _ _ _)
        · obtain ⟨more, rfl, hmore⟩ := ih h
          refine ⟨(⟨some space, name.base⟩, value) :: more, by
            simp, fun declared hscope => .cons ⟨rfl, .inr ?_⟩
            (hmore declared hscope)⟩
          obtain ⟨raw, hraw, hliteral⟩ := exists_declared_of_lookup hscope hspace
          exact ⟨raw, hqualifier ▸ hraw, fun h => congrArg some (hliteral h)⟩

theorem expandElement_eq_ok {scope : Scope} {written : WrittenName} {name : Name}
    (h : expandElement opening scope written = .ok name) (hscope : scope.ComesFrom declared) :
    Expands declared written name := by
  rw [expandElement.eq_def] at h
  split at h
  · rename_i hqualifier
    cases h
    refine ⟨rfl, ?_⟩
    cases hspace : scope.lookup written.qualifier with
    | none => exact .inl ⟨rfl, hqualifier⟩
    | some space =>
      obtain ⟨raw, hraw, hliteral⟩ := exists_declared_of_lookup hscope hspace
      cases space with
      | nil => exact .inl ⟨rfl, hqualifier⟩
      | cons c space => exact .inr ⟨raw, hraw, fun h => congrArg some (hliteral h)⟩
  · rename_i space hqualifier hspace
    cases h
    obtain ⟨raw, hraw, hliteral⟩ := exists_declared_of_lookup hscope hspace
    exact ⟨rfl, .inr ⟨raw, hraw, fun h => congrArg some (hliteral h)⟩⟩
  · exact absurd h (fail_ne_ok _ _ _)

def Opened.head (opened : Opened) : Name × List (Name × Text) := (opened.name, opened.attributes)

theorem IsTagReadAs.isAccepted {read : StartTag} (h : IsTagReadAs tag read)
    (hdistinct : (tag.attributes.map fun attr => spelled attr.name).Nodup) : IsAccepted tag where
  written := h.written
  bracket := h.bracket
  name := ⟨read.name, h.isRead, h.name⟩
  attributes := fun attr hattr => by
    obtain ⟨written, -, hread⟩ := exists_of_forall₂ h.attributes hattr
    obtain ⟨assigned, hassigned, hquote, -⟩ := hread.value
    exact ⟨⟨written.name, hread.isRead, hread.name⟩, assigned, hassigned, hquote⟩
  distinct := by
    have hspelled : tag.attributes.map (fun attr => spelled attr.name) =
      (tag.attributes.map (·.name)).map spelled := by
      rw [List.map_map]
      rfl
    rw [hspelled] at hdistinct
    exact List.Nodup.of_map _ hdistinct

theorem openElement_eq_ok {scope : Scope} {read : StartTag} {opened : Opened}
    (htag : IsTagReadAs tag read)
    (h : openElement entities scope opening read = .ok opened) :
    ∀ declared, scope.ComesFrom declared → tag.declared ⊆ declared →
      opened.scope.ComesFrom declared ∧ Opens declared tag opened.head := by
  rw [openElement, bind_eq_ok] at h
  obtain ⟨⟨inner, others⟩, hseparate, h⟩ := h
  rw [bind_eq_ok] at h
  obtain ⟨attributes, hattributes, h⟩ := h
  rw [bind_eq_ok] at h
  obtain ⟨name, hname, h⟩ := h
  cases h
  obtain ⟨own, rfl, hown, hnodup, -, hcomes⟩ := separate_eq_ok htag.attributes hseparate
  obtain ⟨more, rfl, hmore⟩ := expandAttributes_eq_ok hattributes
  intro declared hscope hsubset
  have hinner := hcomes declared hscope hsubset
  have hspelled : spelled tag.name = read.name := by rw [htag.name, spelled_text htag.isRead]
  refine ⟨hinner, htag.isAccepted hnodup, ?_, ?_⟩
  · rw [hspelled]
    exact expandElement_eq_ok hname hinner
  · have hnames : List.Forall₂ (fun (name : WrittenName) (entry : Name × Text) =>
      Expands declared name entry.1)
        ((tag.attributes.filter (·.binds?.isNone)).map fun attr => spelled attr.name)
          attributes := by
      rw [← hown, List.forall₂_map_left_iff]
      exact hmore declared hinner
    exact List.forall₂_map_left_iff.mp hnames

end Visualforce.Xml
