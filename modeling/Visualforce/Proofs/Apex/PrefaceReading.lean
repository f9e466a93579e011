import Visualforce.Proofs.Apex.PrefaceMembers
import Visualforce.Proofs.Apex.RoundTrip

/-! # Reading documentation

A class is read with documentation and annotations for each member: all those behind the member
before it. They are those written for it when it is guarded, and then it makes no difference what
stands in front of the inner classes.
-/
namespace Visualforce.Apex
open Pattern Cursor

variable {prefaces : List Preface} {parts : List Part} {name : Text} {before : Option Char}

/-- What stands for a part among the members of its class: blanks for an inner class. -/
def Part.shown : Part → Text
  | .inner name parts => List.replicate (Part.inner name parts).source.length ' '
  | part => part.source

theorem isBlank_shown (name : Text) (parts : List Part) :
    ∀ c ∈ (Part.inner name parts).shown, Text.isBlank c := by
  intro c hc
  rw [List.eq_of_mem_replicate hc]
  decide

theorem notesOf_nil : notesOf [] = Notes.empty.join .empty := rfl

/-- The induction is on the parts. The prefaces behind the last member are carried along, with
blanks for classes. -/
theorem scans_parts {α : Type} {pattern finish : Pattern MemberPart} {mark : Char}
    {view : Hit MemberPart → α}
    {values : Notes → Member → List α} (hpattern : IsMemberPattern pattern finish mark)
    (hscans : ScansMembers pattern view values) {inherited own : Notes} (h : PartsArePlain parts)
    (hprefaces : ∀ preface ∈ prefaces, preface.IsPlain)
    (hnotes : notesOf prefaces = inherited.join own)
    (hbefore : before.any Text.isBlank = false) : ∃ after,
    Scans pattern (seen view) (between before (prefaceText prefaces ++ parts.flatMap Part.shown))
      ((notedFrom inherited own parts).flatMap fun m => values m.reached m.member)
        (between after []) := by
  induction parts generalizing prefaces inherited own before with
  | nil => exact ⟨_, (quiet_prefaces hpattern hprefaces refuses_nil).scans_seen view⟩
  | cons part parts ih =>
    rw [PartsArePlain] at h
    obtain ⟨hpart, hparts⟩ := h
    have hmember : (some '\x7d').any Text.isBlank = false := by decide
    have hadded {added : Preface} (hadded : added.IsPlain) : ∀ preface ∈ prefaces ++
      [added], preface.IsPlain :=
      List.forall_mem_append.mpr ⟨hprefaces, List.forall_mem_singleton.mpr hadded⟩
    have htext (added : Preface) (rest : Text) :
        prefaceText prefaces ++ (added.source ++ rest) = prefaceText (prefaces ++ [added]) ++
          rest := by
      simp [prefaceText]
    cases part with
    | preface added =>
      rw [Part.IsPlain] at hpart
      have hnotes' : notesOf (prefaces ++ [added]) = inherited.join (own.join added.notes) := by
        rw [notesOf_concat, hnotes, Notes.join_assoc]
      have hshown : (Part.preface added).shown = added.source := rfl
      rw [List.flatMap_cons, hshown, htext]
      exact ih hparts (hadded hpart) hnotes' hbefore
    | property signature =>
      rw [Part.IsPlain] at hpart
      obtain ⟨after, hscan⟩ := ih hparts (List.forall_mem_nil Preface.IsPlain) notesOf_nil hmember
      refine ⟨after, ?_⟩
      rw [List.flatMap_cons, notedFrom, List.flatMap_cons]
      have hfirst := hscans.property hprefaces hpart hbefore (parts.flatMap Part.shown)
      rw [hnotes] at hfirst
      exact hfirst.append hscan
    | method signature parameters =>
      rw [Part.IsPlain] at hpart
      obtain ⟨after, hscan⟩ := ih hparts (List.forall_mem_nil Preface.IsPlain) notesOf_nil hmember
      refine ⟨after, ?_⟩
      rw [List.flatMap_cons, notedFrom, List.flatMap_cons]
      have hfirst := hscans.method hprefaces hpart.1 hpart.2 hbefore (parts.flatMap Part.shown)
      rw [hnotes] at hfirst
      exact hfirst.append hscan
    | inner name inside =>
      -- the blanks of a class are one more preface, which has no notes
      have hblanks : (Preface.blanks (Part.inner name inside).shown).IsPlain :=
        isBlank_shown name inside
      have hnotes' : notesOf (prefaces ++ [.blanks (Part.inner name inside).shown]) =
        (inherited.join own).join .empty := by
        rw [notesOf_concat, hnotes]
        rfl
      rw [List.flatMap_cons]
      exact htext (.blanks (Part.inner name inside).shown) _ ▸ ih hparts (hadded hblanks)
        hnotes' hbefore

theorem properties_shown (h : PartsArePlain parts) :
    (propertyPattern.hits (parts.flatMap Part.shown)).map propertyOf =
      propertiesTaking Noted.reached (noted parts) := by
  have hnone : (none : Option Char).any Text.isBlank = false := rfl
  obtain ⟨after, hscan⟩ := scans_parts isMemberPattern_property scansMembers_properties h
    (List.forall_mem_nil Preface.IsPlain) notesOf_nil hnone
  exact hscan.hits

theorem methods_shown (h : PartsArePlain parts) :
    (methodPattern.hits (parts.flatMap Part.shown)).map methodOf = methodsTaking Noted.reached
      (noted parts) := by
  have hnone : (none : Option Char).any Text.isBlank = false := rfl
  obtain ⟨after, hscan⟩ := scans_parts isMemberPattern_method scansMembers_methods h
    (List.forall_mem_nil Preface.IsPlain) notesOf_nil hnone
  exact hscan.hits

theorem Preface.IsPlain.isBalanced {preface : Preface} (h : preface.IsPlain) :
    IsBalanced preface.source := by
  cases preface with
  | blanks text => exact isBalanced_blanks h
  | doc text => exact isBalanced_blockComment h.closed
  | marked a => exact h.balanced

mutual
theorem isBalanced_part : (part : Part) → part.IsPlain → IsBalanced part.source
  | .preface preface, h => by
    rw [Part.IsPlain] at h
    rw [Part.source]
    exact h.isBalanced
  | .property signature, h => by
    rw [Part.IsPlain] at h
    exact isBalanced_entry (.property signature) h
  | .method signature parameters, h => by
    rw [Part.IsPlain] at h
    exact isBalanced_entry (.method [] signature parameters) ⟨List.forall_mem_nil _, h⟩
  | .inner name parts, h => by
    rw [Part.IsPlain] at h
    have hfront : IsBalanced ("public class ".toList ++ name ++ [' ']) :=
      .append (.append (.of_forall (by decide)) (isBalanced_identifier h.1))
        (.of_forall (by decide))
    have hsource : (Part.inner name parts).source =
        "public class ".toList ++ name ++ [' '] ++ ('\x7b' :: partsSource parts ++ ['\x7d']) := by
      rw [Part.source, classHead_eq]
      simp only [List.append_assoc, List.cons_append, List.nil_append]
    rw [hsource]
    exact hfront.append (isBalanced_parts parts h.2).braces

theorem isBalanced_parts : (parts : List Part) → PartsArePlain parts →
    IsBalanced (partsSource parts)
  | [], _ => .nil
  | part :: parts, h => by
    rw [PartsArePlain] at h
    rw [partsSource]
    exact (isBalanced_part part h.1).append (isBalanced_parts parts h.2)
end

/-- The names and the parts of inner classes. -/
def Part.inners : Part → List (Text × List Part)
  | .inner name parts => [(name, parts)]
  | _ => []

/-- The names and the bodies of the inner classes. -/
def innerBodies (parts : List Part) : List (Text × Text) :=
  (parts.flatMap Part.inners).map fun inner => (inner.1, partsSource inner.2)

theorem declares_preface {preface : Preface} (h : preface.IsPlain) :
    Declares preface.source preface.source [] := by
  by_cases hne : preface.source = []
  · rw [hne]
    exact .nil
  · exact .of_quiet (fun _ _ _ => quiet_class_passage (h.isPassage hne)) fun before _ =>
      isWord_behind_passage (h.isPassage hne) before

theorem declares_part {part : Part} (h : part.IsPlain) :
    Declares part.source part.shown (innerBodies [part]) ∧ KeepsAhead part.source := by
  cases part with
  | preface preface =>
    rw [Part.IsPlain] at h
    exact ⟨declares_preface h, h.keepsAhead⟩
  | property signature =>
    rw [Part.IsPlain] at h
    have hentry : (Entry.property signature).IsPlain := h
    exact ⟨declares_entry hentry, keepsAhead_source hentry⟩
  | method signature parameters =>
    rw [Part.IsPlain] at h
    have hentry : (Entry.method [] signature parameters).IsPlain := ⟨List.forall_mem_nil _, h⟩
    exact ⟨declares_entry hentry, keepsAhead_source hentry⟩
  | inner name parts =>
    rw [Part.IsPlain] at h
    rw [Part.shown, Part.source]
    exact ⟨declares_class h.1 (isBalanced_parts parts h.2), keepsAhead_cons (by decide)⟩

theorem declares_parts (h : PartsArePlain parts) :
    Declares (partsSource parts) (parts.flatMap Part.shown) (innerBodies parts) ∧
      KeepsAhead (partsSource parts) := by
  induction parts with
  | nil => exact ⟨.nil, fun _ hrest => hrest⟩
  | cons part parts ih =>
    rw [PartsArePlain] at h
    obtain ⟨hpart, hpartAhead⟩ := declares_part h.1
    obtain ⟨hrest, hahead⟩ := ih h.2
    have hbodies : innerBodies (part :: parts) = innerBodies [part] ++ innerBodies parts := by
      simp [innerBodies]
    rw [partsSource, hbodies]
    exact ⟨hpart.append hrest hahead, hpartAhead.append hahead⟩

section Inners
variable {inner : Text × List Part} (h : inner ∈ parts.flatMap Part.inners)
include h

theorem isPlain_of_mem_inners (hparts : PartsArePlain parts) : PartsArePlain inner.2 := by
  induction parts with
  | nil => cases h
  | cons part parts ih =>
    rw [PartsArePlain] at hparts
    rw [List.flatMap_cons, List.mem_append] at h
    rcases h with h | h
    · cases part with
      | inner name inside =>
        rw [List.mem_singleton.mp h]
        exact hparts.1.2
      | preface preface => cases h
      | property signature => cases h
      | method signature parameters => cases h
    · exact ih h hparts.2

theorem length_partsSource_lt : (partsSource inner.2).length < (partsSource parts).length := by
  induction parts with
  | nil => cases h
  | cons part parts ih =>
    rw [partsSource, List.length_append]
    rw [List.flatMap_cons, List.mem_append] at h
    rcases h with h | h
    · cases part with
      | inner name inside =>
        obtain rfl : inner = (name, inside) := List.mem_singleton.mp h
        simp only [Part.source, List.length_append, List.length_singleton]
        omega
      | preface preface => cases h
      | property signature => cases h
      | method signature parameters => cases h
    · have hlt := ih h
      omega

end Inners

theorem classesTaking_eq (take : Noted → Notes) (parts : List Part) : classesTaking take parts =
    (parts.flatMap Part.inners).map fun inner => describedTaking take inner.1 inner.2 := by
  induction parts with
  | nil => rfl
  | cons part parts ih =>
    rw [classesTaking, ih, List.flatMap_cons, List.map_append]
    refine congrArg (· ++ _) ?_
    cases part with
    | preface preface => rfl
    | property signature => rfl
    | method signature parameters => rfl
    | inner name inside =>
      rw [Part.classesTaking]
      rfl

/-- The induction is on the fuel: the body of an inner class is shorter than what it stands in. -/
theorem readBody_partsSource {fuel : Nat} (name : Text) (h : PartsArePlain parts)
    (hfuel : (partsSource parts).length < fuel) :
    readBody fuel name (partsSource parts) = describedTaking Noted.reached name parts := by
  induction fuel generalizing name parts with
  | zero => exact absurd hfuel (Nat.not_lt_zero _)
  | succ fuel ih =>
    have hinners : ∀ inner ∈ parts.flatMap Part.inners,
        readBody fuel inner.1 (partsSource inner.2) = describedTaking Noted.reached inner.1
        inner.2 := by
      intro inner hinner
      have hlt := length_partsSource_lt hinner
      exact ih inner.1 (isPlain_of_mem_inners hinner h) (by omega)
    have hclasses : (innerBodies parts).map (fun inner => readBody fuel inner.1 inner.2) =
      classesTaking Noted.reached parts := by
      rw [classesTaking_eq, innerBodies, List.map_map]
      exact List.map_congr_left hinners
    rw [readBody_of_declares (declares_parts h).1, properties_shown h, methods_shown h, hclasses]
    rfl

theorem quiet_class_prefaces {rest : Text} (h : ∀ preface ∈ prefaces, preface.IsPlain)
    (hbefore : before.any Text.isWord = false) (hrest : IsAhead rest) :
    Quiet classPattern before (prefaceText prefaces) rest ∧
      (behind before (prefaceText prefaces)).any Text.isWord = false := by
  induction prefaces generalizing before with
  | nil => exact ⟨trivial, hbefore⟩
  | cons preface prefaces ih =>
    obtain ⟨hpreface, hprefaces⟩ := List.forall_mem_cons.mp h
    have htext : prefaceText (preface :: prefaces) = preface.source ++ prefaceText prefaces := rfl
    by_cases hne : preface.source = []
    · rw [htext, hne]
      exact ih hprefaces hbefore
    · have hpassage := hpreface.isPassage hne
      obtain ⟨hquiet, hbehind⟩ := ih hprefaces (isWord_behind_passage hpassage before)
      rw [htext, behind_append]
      exact ⟨.append (quiet_class_passage hpassage (keepsAhead_prefaces hprefaces rest hrest))
        hquiet, hbehind⟩

/-- A class is read as what its members say with all notes behind the member before them. -/
theorem read_parts (hprefaces : ∀ preface ∈ prefaces, preface.IsPlain)
    (h : (Part.inner name parts).IsPlain) (fallback : Text) :
    read (prefaceText prefaces ++ (Part.inner name parts).source) fallback =
      describedTaking Noted.reached name parts := by
  have hahead : IsAhead (Part.inner name parts).source := by
    have hall := (declares_part h).2 [] isAhead_nil
    rwa [List.append_nil] at hall
  rw [Part.IsPlain] at h
  have hnone : (none : Option Char).any Text.isWord = false := rfl
  obtain ⟨hquiet, hbefore⟩ := quiet_class_prefaces hprefaces hnone hahead
  rw [Part.source] at hquiet ⊢
  obtain ⟨fuel, hfuel, hread⟩ := read_class h.1 (isBalanced_parts parts h.2) hquiet hbefore fallback
  rw [hread]
  exact readBody_partsSource name h.2 hfuel

end Visualforce.Apex
