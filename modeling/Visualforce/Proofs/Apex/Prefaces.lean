import Visualforce.Proofs.Apex.Nesting

/-! # Outlines with documentation

Documentation and annotations may stand in front of members and of inner classes. Each member has
its own, those that are written between it and the member or class before it. An inner class leaves
none to the members behind it. What stands in front of the class is kept apart here as inherited: it
is there for the reader, since a class is blanked out without what stands in front of it.
-/
namespace Visualforce.Apex
open Pattern

/-- What may stand in front of a declaration. -/
inductive Preface where
  | blanks (text : Text)
  | doc (text : Text)
  | marked (a : AnnotationText)

/-- What a class is written with: its members, its inner classes, and what stands in front of
them. -/
inductive Part where
  | preface (preface : Preface)
  | property (signature : Signature)
  | method (signature : Signature) (parameters : Text)
  | inner (name : Text) (parts : List Part)

def documentation (text : Text) : Text := blockComment ('*' :: text)

def Preface.source : Preface → Text
  | blanks text => text
  | doc text => documentation text
  | marked a => a.source

mutual
def Part.source : Part → Text
  | .preface preface => preface.source
  | .property signature => (Member.property signature).source
  | .method signature parameters => (Member.method [] signature parameters).source
  | .inner name parts => classHead name ++ partsSource parts ++ ['\x7d']

def partsSource : List Part → Text
  | [] => []
  | part :: rest => part.source ++ partsSource rest
end

/-- The last documentation and the annotations behind it. -/
structure Notes where
  doc : Option Text
  annotations : List AnnotationText

namespace Notes

def empty : Notes := ⟨none, []⟩

/-- Documentation makes void what stands in front of it. -/
def join (earlier later : Notes) : Notes :=
  match later.doc with
  | some _ => later
  | none => ⟨earlier.doc, earlier.annotations ++ later.annotations⟩

/-- The words of the documentation, or else a default. -/
def description (notes : Notes) (default : Text) : Text :=
  (notes.doc.bind fun text => nonEmpty? (cleanDoc (documentation text))).getD default

variable (first second third : Notes)

@[simp] theorem empty_join : empty.join first = first := by
  obtain ⟨doc, annotations⟩ := first
  cases doc with
  | none => rfl
  | some text => rfl

@[simp] theorem join_empty : first.join empty = first := by
  rw [join, empty, List.append_nil]

theorem join_assoc : (first.join second).join third = first.join (second.join third) := by
  obtain ⟨doc, annotations⟩ := third
  cases doc with
  | some text => rfl
  | none =>
    obtain ⟨doc, annotations'⟩ := second
    cases doc with
    | some text => rfl
    | none => simp [join]

theorem join_eq_empty_iff : first.join second = empty ↔ first = empty ∧ second = empty := by
  constructor
  · intro h
    obtain ⟨doc, annotations⟩ := second
    cases doc with
    | some text => exact absurd (congrArg Notes.doc h) (Option.some_ne_none text)
    | none =>
      obtain ⟨hdoc, hannotations⟩ := Notes.mk.inj h
      obtain ⟨hfirst, rfl⟩ := List.append_eq_nil_iff.mp hannotations
      obtain ⟨doc, annotations'⟩ := first
      exact ⟨by rw [show doc = none from hdoc, show annotations' = [] from hfirst]; rfl, rfl⟩
  · rintro ⟨rfl, rfl⟩
    rfl

end Notes

def Preface.notes : Preface → Notes
  | blanks _ => .empty
  | doc text => ⟨some text, []⟩
  | marked a => ⟨none, [a]⟩

def notesOf : List Preface → Notes
  | [] => .empty
  | preface :: rest => preface.notes.join (notesOf rest)

theorem notesOf_concat (prefaces : List Preface) (preface : Preface) :
    notesOf (prefaces ++ [preface]) = (notesOf prefaces).join preface.notes := by
  induction prefaces with
  | nil => simp [notesOf]
  | cons first prefaces ih => rw [List.cons_append, notesOf, ih, notesOf, Notes.join_assoc]

/-- A property or a method, the notes in front of inner classes that stand between it and the member
before it, and its own. -/
structure Noted where
  member : Member
  inherited : Notes
  own : Notes

/-- All notes behind the member before. -/
def Noted.reached (m : Noted) : Notes := m.inherited.join m.own

def notedFrom (inherited own : Notes) : List Part → List Noted
  | [] => []
  | .preface preface :: rest => notedFrom inherited (own.join preface.notes) rest
  | .property signature :: rest => ⟨.property signature, inherited, own⟩ :: notedFrom .empty .empty
      rest
  | .method signature parameters :: rest => ⟨.method [] signature parameters, inherited, own⟩ ::
      notedFrom .empty .empty rest
  | .inner _ _ :: rest => notedFrom (inherited.join own) .empty rest

/-- The members among the parts of a class. -/
def noted (parts : List Part) : List Noted := notedFrom .empty .empty parts

def Member.propertiesWith (notes : Notes) (member : Member) : List Property :=
  member.properties.map fun property => { property with
      description := notes.description property.description }

def Member.methodsWith (notes : Notes) (member : Member) : List Method :=
  member.methods.map fun method => { method with
    annotations := notes.annotations.flatMap AnnotationText.listed
    description := notes.description method.description }

section Classes
variable (take : Noted → Notes)

def propertiesTaking (members : List Noted) : List Property :=
  members.flatMap fun m => m.member.propertiesWith (take m)

def methodsTaking (members : List Noted) : List Method :=
  members.flatMap fun m => m.member.methodsWith (take m)

mutual
def Part.classesTaking : Part → List Class
  | .preface _ => []
  | .property _ => []
  | .method _ _ => []
  | .inner name parts =>
    [.mk name (propertiesTaking take (noted parts)) (methodsTaking take (noted parts))
      (classesTaking parts)]

def classesTaking : List Part → List Class
  | [] => []
  | part :: rest => part.classesTaking ++ classesTaking rest
end

/-- The class of the given name and parts, where each member takes these of its notes. -/
def describedTaking (name : Text) (parts : List Part) : Class :=
  .mk name (propertiesTaking take (noted parts)) (methodsTaking take (noted parts))
    (classesTaking take parts)

end Classes

/-- The member does not depend on what stands in front of the inner classes before it: there is
nothing, or it has documentation of its own. -/
def Noted.IsGuarded (m : Noted) : Prop := m.own.doc.isSome ∨ m.inherited = .empty

mutual
def Part.IsGuarded : Part → Prop
  | .preface _ => True
  | .property _ => True
  | .method _ _ => True
  | .inner _ parts => (∀ m ∈ noted parts, m.IsGuarded) ∧ InnersAreGuarded parts

def InnersAreGuarded : List Part → Prop
  | [] => True
  | part :: rest => part.IsGuarded ∧ InnersAreGuarded rest
end

theorem Noted.IsGuarded.reached_eq {m : Noted} (h : m.IsGuarded) : m.reached = m.own := by
  obtain ⟨member, inherited, doc, annotations⟩ := m
  rcases h with h | h
  · obtain ⟨text, rfl⟩ := Option.isSome_iff_exists.mp h
    rfl
  · obtain rfl : inherited = .empty := h
    exact Notes.empty_join _

/-- A name behind an at sign and an opening parenthesis behind it. -/
def argumentsLead : Pattern Unit := char '@' ++ plus wordChar ++ char '('

/-- The documentation ends where it is written to end, holds no mark of another one, no word that
begins a declaration, and no front of an annotation with arguments. -/
structure IsPlainDoc (text : Text) : Prop where
  closed : ¬ ['*', '/'] <:+: '*' :: text
  single : ¬ "/**".toList <:+: (documentation text).tail
  wordless : IsWordless (documentation text)
  bare : argumentsLead.occursIn (documentation text) = false

/-- The arguments hold no mark of documentation and no word that begins a declaration, and their
braces make no difference. -/
structure IsPlainAnnotation (a : AnnotationText) : Prop where
  single : ¬ "/**".toList <:+: a.source
  wordless : IsWordless a.source
  balanced : IsBalanced a.source

def Preface.IsPlain : Preface → Prop
  | blanks text => ∀ c ∈ text, Text.isBlank c
  | doc text => IsPlainDoc text
  | marked a => IsPlainAnnotation a

mutual
def Part.IsPlain : Part → Prop
  | .preface preface => preface.IsPlain
  | .property signature => signature.IsPlain
  | .method signature parameters => signature.IsPlain ∧ IsParameters parameters
  | .inner name parts => IsIdentifier name ∧ PartsArePlain parts

def PartsArePlain : List Part → Prop
  | [] => True
  | part :: rest => part.IsPlain ∧ PartsArePlain rest
end

end Visualforce.Apex
