import Visualforce.Proofs.Apex.PrefaceScan

/-! # Scanning members with documentation

A member is found with all notes behind the member before it: the last documentation and the
annotations behind it. What stands in front of an inner class is among them, since only blanks stand
for the class itself.
-/
namespace Visualforce.Apex
open Pattern Cursor

variable {prefaces : List Preface} {text rest : Text} {before : Option Char}

namespace AnnotationText

/-- The annotation with more blanks behind it. -/
def widen (a : AnnotationText) (space : Text) (h : ∀ c ∈ space, Text.isBlank c) : AnnotationText :=
  ⟨a.name, a.arguments, a.space ++ space, a.isName, a.isClosed,
    List.append_ne_nil_of_left_ne_nil a.isSpace.1 space, List.forall_mem_append.mpr
    ⟨a.isSpace.2, h⟩⟩

theorem source_widen (a : AnnotationText) {space : Text} (h : ∀ c ∈ space, Text.isBlank c) :
    (a.widen space h).source = a.source ++ space := by
  simp only [source, List.append_assoc]
  rfl

end AnnotationText

def docText (doc : Option Text) : Text := (doc.map documentation).getD []

/-- The prefaces are written as dead ones, in front of documentation, and then the documentation,
blanks and annotations that the notes of the prefaces are made of. -/
structure IsReached (prefaces dead : List Preface) (doc : Option Text) (space : Text)
    (annotations : List AnnotationText) :
    Prop where
  text_eq : prefaceText prefaces =
    prefaceText dead ++ (docText doc ++ (space ++ annotations.flatMap AnnotationText.source))
  isPlain_dead : ∀ preface ∈ dead, preface.IsPlain
  dead_eq : doc = none → dead = []
  isPlain_doc : ∀ text ∈ doc, IsPlainDoc text
  isSpace : ∀ c ∈ space, Text.isBlank c
  doc_eq : (notesOf prefaces).doc = doc
  listed_eq : (notesOf prefaces).annotations.flatMap AnnotationText.listed =
    annotations.flatMap AnnotationText.listed

theorem exists_isReached (h : ∀ preface ∈ prefaces, preface.IsPlain) : ∃ dead doc space annotations,
    IsReached prefaces dead doc space annotations := by
  have hnone : ∀ text ∈ (none : Option Text), IsPlainDoc text :=
    fun text hmem => absurd hmem (Option.not_mem_none text)
  induction prefaces with
  | nil =>
    exact ⟨[], none, [], [], rfl, List.forall_mem_nil _, fun _ => rfl, hnone,
      List.forall_mem_nil _, rfl, rfl⟩
  | cons preface prefaces ih =>
    obtain ⟨hpreface, hprefaces⟩ := List.forall_mem_cons.mp h
    obtain ⟨dead, doc, space, annotations, hreached⟩ := ih hprefaces
    have htext : prefaceText (preface :: prefaces) = preface.source ++ prefaceText prefaces := rfl
    cases doc with
    | some inside =>
      -- documentation behind the preface makes it void
      have hnotes : notesOf (preface :: prefaces) = notesOf prefaces := by
        rw [notesOf, Notes.join, hreached.doc_eq]
      have hdead := List.forall_mem_cons.mpr ⟨hpreface, hreached.isPlain_dead⟩
      refine ⟨preface :: dead, some inside, space, annotations, ?_, hdead,
        (absurd · (Option.some_ne_none inside)), hreached.isPlain_doc, hreached.isSpace, ?_, ?_⟩
      · rw [htext, hreached.text_eq, ← List.append_assoc]
        rfl
      · rw [hnotes, hreached.doc_eq]
      · rw [hnotes, hreached.listed_eq]
    | none =>
      obtain rfl := hreached.dead_eq rfl
      have hsource : prefaceText prefaces = space ++ annotations.flatMap AnnotationText.source :=
        hreached.text_eq
      have hnotes : notesOf (preface :: prefaces) =
          ⟨preface.notes.doc, preface.notes.annotations ++ (notesOf prefaces).annotations⟩ := by
        rw [notesOf, Notes.join, hreached.doc_eq]
      cases preface with
      | blanks text =>
        refine ⟨[], none, text ++ space, annotations, ?_, List.forall_mem_nil _, fun _ => rfl,
          hnone, List.forall_mem_append.mpr ⟨hpreface, hreached.isSpace⟩, ?_, ?_⟩
        · rw [htext, hsource, List.append_assoc]
          rfl
        · rw [hnotes]
          rfl
        · rw [hnotes]
          exact hreached.listed_eq
      | doc inside =>
        refine ⟨[], some inside, space, annotations, ?_, List.forall_mem_nil _, fun _ => rfl, ?_,
          hreached.isSpace, ?_, ?_⟩
        · rw [htext, hsource]
          rfl
        · rintro _ ⟨⟩
          exact hpreface
        · rw [hnotes]
          rfl
        · rw [hnotes]
          exact hreached.listed_eq
      | marked a =>
        refine ⟨[], none, [], a.widen space hreached.isSpace :: annotations, ?_,
          List.forall_mem_nil _, fun _ => rfl, hnone, List.forall_mem_nil _, ?_, ?_⟩
        · rw [htext, hsource, List.flatMap_cons, a.source_widen, List.append_assoc]
          rfl
        · rw [hnotes]
          rfl
        · rw [hnotes]
          exact congrArg (a.listed ++ ·) hreached.listed_eq

/-- The scan passes the dead front of prefaces and comes to a place from which the front of a member
leads up to its annotations. With them the member takes all notes of the prefaces. -/
structure IsTaken (pattern : Pattern MemberPart) (prefaces : List Preface) (before : Option Char)
    (member dead front : Text)
    (annotations : List AnnotationText) (after : Option Char) (docs : List (MemberPart × Span)) :
    Prop where
  text_eq : prefaceText prefaces = dead ++ (front ++ annotations.flatMap AnnotationText.source)
  quiet : Quiet pattern before dead (front ++ (annotations.flatMap AnnotationText.source ++ member))
  passes : Passes (behind before dead) front (annotations.flatMap AnnotationText.source ++ member)
    after docs
  listed_eq : (notesOf prefaces).annotations.flatMap AnnotationText.listed =
    annotations.flatMap AnnotationText.listed
  description_eq : ∀ default, (notesOf prefaces).description default =
    (saidIn (textsOf docs)).getD default

section Member
variable {pattern finish : Pattern MemberPart} {mark : Char} {signature : Signature} {ending : Text}
  (hpattern : IsMemberPattern pattern finish mark) (h : ∀ preface ∈ prefaces, preface.IsPlain)
    (hsignature : signature.IsPlain)
include hpattern h hsignature

theorem exists_isTaken (hbefore : before.any Text.isBlank = false) (rest : Text) :
    ∃ dead front annotations after docs, IsTaken pattern prefaces before (signature.source ++ rest)
      dead front annotations after docs := by
  obtain ⟨dead, doc, space, annotations, hreached⟩ := exists_isReached h
  have htext : prefaceText prefaces =
      prefaceText dead ++ (docText doc ++ space ++ annotations.flatMap AnnotationText.source) := by
    rw [hreached.text_eq, List.append_assoc]
  cases doc with
  | none =>
    obtain rfl := hreached.dead_eq rfl
    refine ⟨_, _, annotations, _, _, htext, trivial,
      passes_gap annotations hsignature hreached.isSpace hbefore, hreached.listed_eq, fun default =>
      ?_⟩
    rw [Notes.description, hreached.doc_eq]
    rfl
  | some inside =>
    obtain ⟨words, hwords⟩ := exists_source signature rest
    have hhead : ∀ c ∈ (annotations.flatMap AnnotationText.source ++
      (signature.source ++ rest)).head?,
        Text.isBlank c = false := by
      rw [hwords]
      exact (front_opening hsignature.visibility).1
    obtain ⟨docs, hdocs, hrun⟩ := run_frontPattern_doc (hreached.isPlain_doc inside rfl).not_isInfix
      hreached.isSpace hhead
      (behind before (prefaceText dead))
    refine ⟨_, _, annotations, behind (some '/') space, docs, htext, ?_, ?_, hreached.listed_eq,
      fun default => ?_⟩
    · rw [List.append_assoc]
      exact quiet_prefaces hpattern hreached.isPlain_dead (refuses_doc inside _)
    · intro goOn last hgo
      rw [List.append_assoc]
      refine hrun.trans ?_
      rw [List.append_nil, hgo, Option.some_or]
    · rw [Notes.description, hreached.doc_eq, hdocs, saidIn_doc, Option.bind_some]

omit h in
/-- Behind a visibility stands another mark than the one looked for. -/
theorem refuses_other (hending : IsOtherEnd mark ending) (rest : Text) :
    Refuses (fun behind => signatureRest.run behind fun there => finish.run there some)
      (signature.source ++ (ending ++ '\x7d' :: rest)) := by
  obtain ⟨words, hwords⟩ : ∃ words, signature.tail ++ (ending ++ '\x7d' :: rest) = ' ' :: words :=
    ⟨_, rfl⟩
  have hsource : signature.source ++ (ending ++ '\x7d' :: rest) = signature.visibility ++
    ' ' :: words := by
    rw [Signature.source, List.append_assoc, hwords]
  rw [hsource]
  constructor
  · intro c hc
    obtain ⟨hblank, -, hat⟩ := class_of_letter (head?_visibility hsignature.visibility c hc)
    have hahead : IsAhead ((signature.visibility ++ ' ' :: words) ++ []) :=
      keepsAhead_visibility hsignature.visibility _ [] isAhead_nil
    obtain ⟨more, hmore⟩ := List.head?_eq_some_iff.mp hc
    rw [List.append_nil, hmore, IsAhead, List.dropWhile_cons_of_neg (by simp [hblank])] at hahead
    exact ⟨hahead c rfl, hat⟩
  · intro before groups
    rw [run_group, run_visibility hsignature.visibility, ← hwords]
    exact hending.run_tail_none hpattern hsignature

theorem scans_other {α : Type} {view : Hit MemberPart → α} (hending : IsOtherEnd mark ending)
    (rest : Text) :
    Scans pattern (seen view)
      (between before (prefaceText prefaces ++ (signature.source ++ (ending ++ '\x7d' :: rest)))) []
      (between (some '\x7d') rest) := by
  have hprefaces : Quiet pattern before (prefaceText prefaces)
    (signature.source ++ (ending ++ '\x7d' :: rest)) :=
    quiet_prefaces hpattern h (refuses_other hpattern hsignature hending rest)
  have hmember : Quiet pattern (behind before (prefaceText prefaces))
      ([] ++ (annotationsSource [] ++ (signature.source ++ (ending ++ ['\x7d'])))) rest :=
    quiet_member hpattern hsignature (List.forall_mem_nil _) (List.forall_mem_nil _)
      hending.isLineEnd fun _ _ =>
      hending.run_tail_none hpattern hsignature
  rw [annotationsSource, List.flatMap_nil, List.nil_append, List.nil_append] at hmember
  have hbehind : ∀ before, behind before (signature.source ++ (ending ++ ['\x7d'])) =
    some '\x7d' := by
    intro before
    rw [← List.append_assoc, behind_concat]
  have hscan := (hprefaces.scans_seen view).append (by simpa using hmember.scans_seen view)
  rw [hbehind] at hscan
  exact hscan

end Member

section Taken
variable {pattern : Pattern MemberPart} {member dead front : Text}
    {annotations : List AnnotationText} {after : Option Char}
  {docs : List (MemberPart × Span)} {hit : Hit MemberPart}

theorem IsTaken.scans {α : Type} (view : Hit MemberPart → α)
    (h : IsTaken pattern prefaces before member dead front annotations after docs)
    (hhit : pattern.matchAt (between (behind before dead)
      (front ++ (annotations.flatMap AnnotationText.source ++ member))) = some hit)
    (hlt : hit.stop.left < member.length) :
    Scans pattern (seen view) (between before (prefaceText prefaces ++ member)) [view hit]
      hit.stop := by
  have hless : hit.stop.left <
      (between (behind before dead)
        (front ++ (annotations.flatMap AnnotationText.source ++ member))).left := by
    rw [between_left, List.length_append, List.length_append]
    omega
  have hscan := (h.quiet.scans_seen view).append (Scans.single view hhit hless)
  rw [List.nil_append] at hscan
  rw [h.text_eq]
  simpa only [List.append_assoc] using hscan

end Taken

/-- Behind prefaces each scan passes the members with what they show by the notes of the
prefaces. -/
structure ScansMembers {α : Type} (pattern : Pattern MemberPart) (view : Hit MemberPart → α)
    (values : Notes → Member → List α) : Prop where
  property : ∀ {prefaces before signature}, (∀ preface ∈ prefaces, preface.IsPlain) →
    signature.IsPlain →
    before.any Text.isBlank = false → ∀ rest,
    Scans pattern (seen view)
    (between before (prefaceText prefaces ++ ((Member.property signature).source ++ rest)))
      (values (notesOf prefaces) (.property signature)) (between (some '\x7d') rest)
  method : ∀ {prefaces before signature parameters}, (∀ preface ∈ prefaces, preface.IsPlain) →
    signature.IsPlain →
    IsParameters parameters → before.any Text.isBlank = false → ∀ rest,
    Scans pattern (seen view)
      (between before
        (prefaceText prefaces ++ ((Member.method [] signature parameters).source ++ rest)))
      (values (notesOf prefaces) (.method [] signature parameters)) (between (some '\x7d') rest)

theorem scansMembers_properties :
    ScansMembers propertyPattern propertyOf Member.propertiesWith where
  property := by
    intro prefaces before signature h hsignature hbefore rest
    have hsource : (Member.property signature).source ++ rest = signature.source ++
      (accessorsSource ++ rest) := by
      rw [Member.source, List.append_assoc]
    obtain ⟨dead, front, annotations, after, docs, htaken⟩ :=
      exists_isTaken isMemberPattern_property h hsignature hbefore (accessorsSource ++ rest)
    obtain ⟨hit, hhit, hstop, hview⟩ := exists_property hsignature htaken.passes
    have hlt : hit.stop.left < (signature.source ++ (accessorsSource ++ rest)).length := by
      have hlength : 0 < accessorsSource.length := by decide
      rw [hstop, between_left, List.length_append, List.length_append]
      omega
    have hscan := htaken.scans propertyOf hhit hlt
    rw [hview, hstop, ← htaken.description_eq] at hscan
    rw [hsource]
    exact hscan
  method := by
    intro prefaces before signature parameters h hsignature hparameters _ rest
    have hsource : (Member.method [] signature parameters).source ++ rest =
        signature.source ++ ('(' :: (parameters ++ ") \x7b ".toList) ++ '\x7d' :: rest) := by
      rw [method_source]
      simp [annotationsSource]
    rw [hsource]
    exact scans_other isMemberPattern_property h hsignature (isOtherEnd_parameters hparameters) rest

theorem scansMembers_methods : ScansMembers methodPattern methodOf Member.methodsWith where
  property := by
    intro prefaces before signature h hsignature _ rest
    have hsource : (Member.property signature).source ++ rest =
        signature.source ++ (" \x7b get; set; ".toList ++ '\x7d' :: rest) := by
      rw [property_source]
      simp [annotationsSource]
    rw [hsource]
    exact scans_other isMemberPattern_method h hsignature isOtherEnd_accessors rest
  method := by
    intro prefaces before signature parameters h hsignature hparameters hbefore rest
    have hsource : (Member.method [] signature parameters).source ++ rest =
        signature.source ++ (parametersSource parameters ++ rest) := by
      rw [Member.source, annotationsSource, List.flatMap_nil, List.nil_append, List.append_assoc]
    obtain ⟨dead, front, annotations, after, docs, htaken⟩ :=
      exists_isTaken isMemberPattern_method h hsignature hbefore (parametersSource parameters ++
        rest)
    obtain ⟨hit, hhit, hstop, hview⟩ := exists_method hsignature hparameters htaken.passes
    have hlt : hit.stop.left <
      (signature.source ++ (parametersSource parameters ++ rest)).length := by
      have hlength : 2 < (parametersSource parameters).length := by
        rw [parametersSource, List.cons_append, List.length_cons, List.length_append]
        have hend : 2 ≤ ") \x7b \x7d".toList.length := by decide
        omega
      rw [hstop, between_left, List.length_append, List.length_append]
      simp only [List.length_cons]
      omega
    have hscan := htaken.scans methodOf hhit hlt
    rw [hview, hstop, ← htaken.description_eq, ← htaken.listed_eq] at hscan
    rw [hsource, ← List.append_nil ((Member.method [] signature parameters).methodsWith _)]
    exact hscan.append (quiet_methodEnd.scans_seen methodOf)

end Visualforce.Apex
