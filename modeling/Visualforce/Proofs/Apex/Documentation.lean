import Visualforce.Proofs.Apex.PrefaceReading

/-! # Documentation of inner classes

In a guarded class each member is described by what is written directly in front of it, and prefaces
may be added in front of inner classes at any depth. Elsewhere they reach the member behind the
class.
-/
namespace Visualforce.Apex
open Pattern

variable {bare parts : List Part} {fewer more : List Noted}

theorem flatMap_reached {β : Type} {members : List Noted} (values : Notes → Member → List β)
    (h : ∀ m ∈ members, m.IsGuarded) :
    (members.flatMap fun m => values m.reached m.member) = members.flatMap fun m =>
      values m.own m.member := by
  induction members with
  | nil => rfl
  | cons m members ih =>
    obtain ⟨hm, hmembers⟩ := List.forall_mem_cons.mp h
    rw [List.flatMap_cons, List.flatMap_cons, ih hmembers, hm.reached_eq]

theorem propertiesTaking_reached {members : List Noted} (h : ∀ m ∈ members, m.IsGuarded) :
    propertiesTaking Noted.reached members = propertiesTaking Noted.own members :=
  flatMap_reached (fun notes member => member.propertiesWith notes) h

theorem methodsTaking_reached {members : List Noted} (h : ∀ m ∈ members, m.IsGuarded) :
    methodsTaking Noted.reached members = methodsTaking Noted.own members :=
  flatMap_reached (fun notes member => member.methodsWith notes) h

mutual
theorem classesTaking_reached_part : (part : Part) → part.IsGuarded →
    part.classesTaking Noted.reached = part.classesTaking Noted.own
  | .preface _, _ => rfl
  | .property _, _ => rfl
  | .method _ _, _ => rfl
  | .inner name parts, h => by
    rw [Part.IsGuarded] at h
    rw [Part.classesTaking, Part.classesTaking, propertiesTaking_reached h.1,
      methodsTaking_reached h.1, classesTaking_reached parts h.2]

theorem classesTaking_reached : (parts : List Part) → InnersAreGuarded parts →
    classesTaking Noted.reached parts = classesTaking Noted.own parts
  | [], _ => rfl
  | part :: parts, h => by
    rw [InnersAreGuarded] at h
    rw [classesTaking, classesTaking, classesTaking_reached_part part h.1,
      classesTaking_reached parts h.2]
end

theorem describedTaking_reached {name : Text} (h : (Part.inner name parts).IsGuarded) :
    describedTaking Noted.reached name parts = describedTaking Noted.own name parts := by
  rw [Part.IsGuarded] at h
  rw [describedTaking, describedTaking, propertiesTaking_reached h.1, methodsTaking_reached h.1,
    classesTaking_reached parts h.2]

/-- The second parts are the first ones with prefaces added in front of inner classes, at any
depth. -/
inductive AddsInFront : List Part → List Part → Prop where
  | nil : AddsInFront [] []
  | part {bare parts : List Part} (part : Part) (h : AddsInFront bare parts) :
      AddsInFront (part :: bare) (part :: parts)
  | inner {bare parts inside documented : List Part} (added : List Preface) (name : Text)
      (hinside : AddsInFront inside documented) (h : AddsInFront bare parts) :
      AddsInFront (.inner name inside :: bare)
        (added.map .preface ++ .inner name documented :: parts)

/-- The same members with the same notes of their own, where the first ones inherit nothing unless
the second ones do. -/
def InheritsLess (fewer more : List Noted) : Prop :=
  List.Forall₂ (fun m n => m.member = n.member ∧ m.own = n.own ∧
    (n.inherited = .empty → m.inherited = .empty)) fewer more

theorem InheritsLess.flatMap_own {β : Type} (values : Notes → Member → List β)
    (h : InheritsLess fewer more) :
    (fewer.flatMap fun m => values m.own m.member) = more.flatMap fun m =>
      values m.own m.member := by
  induction h with
  | nil => rfl
  | cons hm _ ih => rw [List.flatMap_cons, List.flatMap_cons, ih, hm.1, hm.2.1]

theorem InheritsLess.isGuarded (h : InheritsLess fewer more) (hmore : ∀ m ∈ more, m.IsGuarded) :
    ∀ m ∈ fewer, m.IsGuarded := by
  induction h with
  | nil => exact List.forall_mem_nil _
  | cons hm _ ih =>
    obtain ⟨hguarded, hrest⟩ := List.forall_mem_cons.mp hmore
    exact List.forall_mem_cons.mpr ⟨hguarded.imp (fun hdoc => hm.2.1 ▸ hdoc) hm.2.2, ih hrest⟩

theorem notedFrom_prefaces (inherited own : Notes) (added : List Preface) (rest : List Part) :
    notedFrom inherited own (added.map .preface ++ rest) =
      notedFrom inherited (own.join (notesOf added)) rest := by
  induction added generalizing own with
  | nil => rw [notesOf, Notes.join_empty]; rfl
  | cons preface added ih =>
    rw [List.map_cons, List.cons_append, notedFrom, ih, notesOf,
      Notes.join_assoc]

namespace AddsInFront

theorem notedFrom {less inherited : Notes} (h : AddsInFront bare parts)
    (hless : inherited = .empty → less = .empty) (own : Notes) :
    InheritsLess (notedFrom less own bare) (notedFrom inherited own parts) := by
  induction h generalizing less inherited own with
  | nil => exact .nil
  | part part h ih =>
    cases part with
    | preface preface => exact ih hless _
    | property signature => exact .cons ⟨rfl, rfl, hless⟩ (ih id _)
    | method signature parameters => exact .cons ⟨rfl, rfl, hless⟩ (ih id _)
    | inner name inside =>
      refine ih (fun hempty => ?_) .empty
      obtain ⟨hinherited, hown⟩ := (Notes.join_eq_empty_iff _ _).mp hempty
      exact (Notes.join_eq_empty_iff _ _).mpr ⟨hless hinherited, hown⟩
  | inner added name hinside h _ ih =>
    rw [notedFrom_prefaces]
    refine ih (fun hempty => ?_) .empty
    obtain ⟨hinherited, hown⟩ := (Notes.join_eq_empty_iff _ _).mp hempty
    exact (Notes.join_eq_empty_iff _ _).mpr
      ⟨hless hinherited, ((Notes.join_eq_empty_iff _ _).mp hown).1⟩

theorem noted (h : AddsInFront bare parts) : InheritsLess (noted bare) (noted parts) :=
  h.notedFrom id .empty

theorem classesTaking_prefaces (take : Noted → Notes) (added : List Preface) (rest : List Part) :
    classesTaking take (added.map .preface ++ rest) = classesTaking take rest := by
  induction added with
  | nil => rfl
  | cons preface added ih => rw [List.map_cons, List.cons_append, classesTaking, ih]; rfl

theorem describedTaking_own (h : AddsInFront bare parts) (name : Text) :
    describedTaking Noted.own name bare = describedTaking Noted.own name parts := by
  have hproperties {bare parts : List Part} (h : AddsInFront bare parts) :=
    h.noted.flatMap_own fun notes member => member.propertiesWith notes
  have hmethods {bare parts : List Part} (h : AddsInFront bare parts) :=
    h.noted.flatMap_own fun notes member => member.methodsWith notes
  have hclasses : classesTaking Noted.own bare = classesTaking Noted.own parts := by
    induction h with
    | nil => rfl
    | part part _ ih => rw [classesTaking, classesTaking, ih]
    | inner added name hinside _ ihInside ih =>
      rw [classesTaking_prefaces, classesTaking, classesTaking, Part.classesTaking,
        Part.classesTaking, ihInside, ih]
      simp only [propertiesTaking, methodsTaking, hproperties hinside, hmethods hinside]
  simp only [describedTaking, propertiesTaking, methodsTaking, hproperties h, hmethods h, hclasses]

theorem isGuarded (h : AddsInFront bare parts) (hparts : InnersAreGuarded parts) :
    InnersAreGuarded bare := by
  have hprefaces (added : List Preface) {rest : List Part}
    (hrest : InnersAreGuarded (added.map .preface ++ rest)) :
      InnersAreGuarded rest := by
    induction added with
    | nil => exact hrest
    | cons preface added ih => exact ih hrest.2
  induction h with
  | nil => trivial
  | part part _ ih => exact ⟨hparts.1, ih hparts.2⟩
  | inner added name hinside _ ihInside ih =>
    obtain ⟨hinner, hrest⟩ := hprefaces added hparts
    rw [Part.IsGuarded] at hinner
    rw [InnersAreGuarded, Part.IsGuarded]
    exact ⟨⟨hinside.noted.isGuarded hinner.1, ihInside hinner.2⟩, ih hrest⟩

theorem arePlain (h : AddsInFront bare parts) (hparts : PartsArePlain parts) :
    PartsArePlain bare := by
  have hprefaces (added : List Preface) {rest : List Part}
    (hrest : PartsArePlain (added.map .preface ++ rest)) :
      PartsArePlain rest := by
    induction added with
    | nil => exact hrest
    | cons preface added ih => exact ih hrest.2
  induction h with
  | nil => trivial
  | part part _ ih => exact ⟨hparts.1, ih hparts.2⟩
  | inner added name hinside _ ihInside ih =>
    obtain ⟨hinner, hrest⟩ := hprefaces added hparts
    rw [Part.IsPlain] at hinner
    rw [PartsArePlain, Part.IsPlain]
    exact ⟨⟨hinner.1, ihInside hinner.2⟩, ih hrest⟩

end AddsInFront

/-- Each member has all notes behind the member before it. In a guarded class these are its own, and
it is read as without the prefaces in front of its inner classes. -/
theorem read_documentation {prefaces : List Preface} {name : Text}
    (hprefaces : ∀ preface ∈ prefaces, preface.IsPlain)
    (h : (Part.inner name parts).IsPlain) (fallback : Text) :
    read (prefaceText prefaces ++ (Part.inner name parts).source) fallback =
      describedTaking Noted.reached name parts ∧
      ((Part.inner name parts).IsGuarded →
        read (prefaceText prefaces ++ (Part.inner name parts).source) fallback =
          describedTaking Noted.own name parts ∧
        ∀ bare, AddsInFront bare parts →
          read (prefaceText prefaces ++ (Part.inner name bare).source) fallback =
          read (prefaceText prefaces ++ (Part.inner name parts).source) fallback) := by
  have hread := read_parts hprefaces h fallback
  refine ⟨hread, fun hguarded => ?_⟩
  have hown := hread.trans (describedTaking_reached hguarded)
  refine ⟨hown, fun bare hadds => ?_⟩
  rw [Part.IsPlain] at h
  rw [Part.IsGuarded] at hguarded
  have hbare : (Part.inner name bare).IsPlain := by
    rw [Part.IsPlain]
    exact ⟨h.1, hadds.arePlain h.2⟩
  have hbareGuarded : (Part.inner name bare).IsGuarded := by
    rw [Part.IsGuarded]
    exact ⟨hadds.noted.isGuarded hguarded.1, hadds.isGuarded hguarded.2⟩
  calc read (prefaceText prefaces ++ (Part.inner name bare).source) fallback
      = describedTaking Noted.reached name bare := read_parts hprefaces hbare fallback
    _ = describedTaking Noted.own name bare := describedTaking_reached hbareGuarded
    _ = describedTaking Noted.own name parts := hadds.describedTaking_own name
    _ = read (prefaceText prefaces ++ (Part.inner name parts).source) fallback := hown.symm

theorem isName_testVisible : "TestVisible".toList ≠ [] ∧
    ∀ c ∈ "TestVisible".toList, Text.isWord c := by decide

theorem isClosed_testVisible : ∀ inside ∈ (none : Option Text), ')' ∉ inside :=
  fun inside hmem => absurd hmem (Option.not_mem_none inside)

theorem isSpace_testVisible : ([' '] : Text) ≠ [] ∧ ∀ c ∈ ([' '] : Text), Text.isBlank c := by
    decide

def testVisible : AnnotationText :=
  ⟨"TestVisible".toList, none, [' '], isName_testVisible, isClosed_testVisible, isSpace_testVisible⟩

theorem isPlain_testVisible : IsPlainAnnotation testVisible :=
  ⟨by decide, isWordless_of_leads (by decide +kernel) fun _ h => h, .of_forall (by decide)⟩

/-- An inner class, a property behind it with documentation of its own, and a method. -/
def tableParts (front : List Preface) : List Part :=
  front.map .preface ++
    [.inner "Row".toList [.property ⟨"public".toList, [], "Integer".toList, "place".toList⟩],
      .preface (.doc " The number of rows. ".toList), .preface (.blanks "\n".toList),
    .property ⟨"public".toList, [], "Integer".toList, "count".toList⟩,
    .preface (.marked testVisible), .method ⟨"public".toList, [], "void".toList, "clear".toList⟩ []]

def tableSource : Text :=
  "/** Holds rows. */\n".toList ++ "public class Table \x7b".toList ++
  "/** A row. */@TestVisible ".toList ++ "public class Row \x7b".toList ++
  "public Integer place ".toList ++ "\x7b get; set; \x7d\x7d".toList ++
  "/** The number of rows. */\n".toList ++ "public Integer count ".toList ++
  "\x7b get; set; \x7d@TestVisible ".toList ++ "public void clear() \x7b \x7d\x7d".toList

def bareTableSource : Text :=
  "/** Holds rows. */\n".toList ++ "public class Table \x7b".toList ++
  "public class Row \x7b".toList ++ "public Integer place ".toList ++
  "\x7b get; set; \x7d\x7d".toList ++ "/** The number of rows. */\n".toList ++
  "public Integer count ".toList ++ "\x7b get; set; \x7d@TestVisible ".toList ++
  "public void clear() \x7b \x7d\x7d".toList

theorem isPlainDoc_of_occursIn {text : Text} (hclosed : ¬ ['*', '/'] <:+: '*' :: text)
    (hsingle : ¬ "/**".toList <:+: (documentation text).tail)
    (hwords : (firstOf wordLeads).occursIn (documentation text) = false)
    (hbare : argumentsLead.occursIn (documentation text) = false) : IsPlainDoc text :=
  ⟨hclosed, hsingle, isWordless_of_leads hwords fun _ h => h, hbare⟩

theorem isPlain_tableParts {front : List Preface} (hfront : ∀ preface ∈ front, preface.IsPlain) :
    (Part.inner "Table".toList (tableParts front)).IsPlain := by
  have hinteger : HasTypeShape ("Integer".toList ++ ([] ++ [])) :=
    .mk (by decide) (by decide) (.inl rfl) (.inl rfl)
  have hvoid : HasTypeShape ("void".toList ++ ([] ++ [])) :=
    .mk (by decide) (by decide) (.inl rfl) (.inl rfl)
  have hrows : IsPlainDoc " The number of rows. ".toList :=
    isPlainDoc_of_occursIn (by decide) (by decide) (by decide +kernel) (by decide +kernel)
  have hparts : PartsArePlain (tableParts []) := by
    refine ⟨⟨⟨by decide, by decide, by decide⟩, ?_, trivial⟩, hrows, ?_, ?_, isPlain_testVisible,
      ⟨?_, ?_⟩, trivial⟩
    · exact ⟨by decide, by decide, ⟨hinteger, by decide, by decide, by decide⟩, by decide, by
        decide, by decide⟩
    · show ∀ c ∈ "\n".toList, Text.isBlank c
      decide
    · exact ⟨by decide, by decide, ⟨hinteger, by decide, by decide, by decide⟩, by decide, by
        decide, by decide⟩
    · exact ⟨by decide, by decide, ⟨hvoid, by decide, by decide, by decide⟩, by decide, by
        decide, by decide⟩
    · exact ⟨by decide, by decide, by decide, by decide, by decide⟩
  refine ⟨⟨by decide, by decide, by decide⟩, ?_⟩
  induction front with
  | nil => exact hparts
  | cons preface front ih =>
    obtain ⟨hpreface, hrest⟩ := List.forall_mem_cons.mp hfront
    exact ⟨hpreface, ih hrest⟩

/-- What stands in front of the inner class of the table. -/
def rowFront : List Preface := [.doc " A row. ".toList, .marked testVisible]

theorem read_documentation_table :
    (∀ preface ∈ [Preface.doc " Holds rows. ".toList, .blanks "\n".toList], preface.IsPlain) ∧
    (Part.inner "Table".toList (tableParts rowFront)).IsPlain ∧
      (Part.inner "Table".toList (tableParts rowFront)).IsGuarded ∧
    read tableSource [] = describedTaking Noted.own "Table".toList (tableParts rowFront) ∧
    (read tableSource []).properties.map Property.description = ["The number of rows.".toList] ∧
    read bareTableSource [] = read tableSource [] := by
  have hfront : ∀ preface ∈ [Preface.doc " Holds rows. ".toList, .blanks "\n".toList],
    preface.IsPlain := by
    have hholds : IsPlainDoc " Holds rows. ".toList :=
      isPlainDoc_of_occursIn (by decide) (by decide) (by decide +kernel) (by decide +kernel)
    have hblanks : ∀ c ∈ "\n".toList, Text.isBlank c := by decide
    exact List.forall_mem_cons.mpr ⟨hholds, List.forall_mem_singleton.mpr hblanks⟩
  have hrow : ∀ preface ∈ rowFront, preface.IsPlain := by
    have hdoc : IsPlainDoc " A row. ".toList :=
      isPlainDoc_of_occursIn (by decide) (by decide) (by decide +kernel) (by decide +kernel)
    exact List.forall_mem_cons.mpr ⟨hdoc, List.forall_mem_singleton.mpr isPlain_testVisible⟩
  have hplain := isPlain_tableParts hrow
  have hguarded : (Part.inner "Table".toList (tableParts rowFront)).IsGuarded := by
    refine ⟨?_, trivial, trivial, ⟨?_, trivial, trivial⟩, trivial, trivial, trivial, trivial,
      trivial, trivial⟩
    · exact List.forall_mem_cons.mpr ⟨.inl rfl, List.forall_mem_singleton.mpr (.inr rfl)⟩
    · exact List.forall_mem_singleton.mpr (.inr rfl)
  have hadds : AddsInFront (tableParts []) (tableParts rowFront) :=
    .inner rowFront _ (.part _ .nil) (.part _ (.part _ (.part _ (.part _ (.part _ .nil)))))
  have hsource : prefaceText [.doc " Holds rows. ".toList, .blanks "\n".toList] ++
      (Part.inner "Table".toList (tableParts rowFront)).source = tableSource := by decide +kernel
  have hbare : prefaceText [.doc " Holds rows. ".toList, .blanks "\n".toList] ++
      (Part.inner "Table".toList (tableParts [])).source = bareTableSource := by decide +kernel
  obtain ⟨hown, hframe⟩ := (read_documentation hfront hplain []).2 hguarded
  have hsame := hframe (tableParts []) hadds
  rw [hsource] at hown hsame
  rw [hbare] at hsame
  refine ⟨hfront, hplain, hguarded, hown, ?_, hsame⟩
  rw [hown]
  decide +kernel

/-- The property behind the inner class has no documentation of its own. -/
def strayParts (front : List Preface) : List Part :=
  .preface (.blanks "\n".toList) ::
    (front.map .preface ++ [.inner "Row".toList [.preface (.blanks " ".toList)],
      .preface (.blanks "\n".toList), .property ⟨"public".toList, [], "Integer".toList, "x".toList⟩,
    .preface (.blanks "\n".toList)])

theorem read_strayDocumentation : ∃ added, AddsInFront (strayParts []) (strayParts added) ∧
    (read (Part.inner "A".toList (strayParts added)).source []).properties.map
      Property.description = ["Inner doc".toList] ∧
    (read (Part.inner "A".toList (strayParts [])).source []).properties.map Property.description =
      ["Property x of type Integer".toList] := by
  refine ⟨[.doc " Inner doc ".toList, .blanks "\n".toList], ?_, by decide +kernel, by
    decide +kernel⟩
  exact .part _ (.inner [.doc " Inner doc ".toList, .blanks "\n".toList] _ (.part _ .nil)
    (.part _ (.part _ (.part _ .nil))))

end Visualforce.Apex
