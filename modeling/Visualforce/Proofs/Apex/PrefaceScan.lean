import Visualforce.Proofs.Apex.PrefaceTexts

/-! # Scanning what stands in front of declarations

No member begins in documentation or in an annotation unless it goes on at the declaration behind
them. A member that does begin there takes the last documentation and the annotations behind it.
-/
namespace Visualforce.Apex
open Pattern Cursor

variable {κ : Type} {groups : List (κ × Span)} {prefaces : List Preface}
    {front text inside space rest : Text}
variable {before : Option Char}

theorem run_notClosing {c : Char} (h : ¬ "*/".toList <+: c :: text) :
    (notClosing : Pattern κ).run ⟨between before (c :: text), groups⟩ some =
    some ⟨between (some c) text, groups⟩ := by
  have hnone : (literal "*/" : Pattern Unit).matchAt (between before (c :: text)) = none := by
    rw [matchAt, literal, run_exactly_of_not_isPrefix h]
    rfl
  rw [notClosing, run_append, Markup.notAhead, run_guard, hnone]
  rfl

theorem run_notClosing_none (rest : Text) :
    (notClosing : Pattern κ).run ⟨between before ("*/".toList ++ rest), groups⟩ some = none := by
  obtain ⟨hit, hhit⟩ : ∃ hit, (literal "*/" : Pattern Unit).matchAt
    (between before ("*/".toList ++ rest)) = some hit := by
    rw [matchAt, literal, run_exactly_append]
    exact ⟨_, rfl⟩
  rw [notClosing, run_append, Markup.notAhead, run_guard, hhit]
  rfl

/-- Documentation is matched in one way. -/
theorem run_docComment {goOn : Place κ → Option (Place κ)} (h : ¬ ['*', '/'] <:+: inside) :
    docComment.run ⟨between before (documentation inside ++ rest), groups⟩ goOn =
      goOn ⟨between (some '/') rest, groups⟩ := by
  have hinside (before : Option Char) : (star notClosing ++ literal "*/").run
      ⟨between before (inside ++ ("*/".toList ++ rest)), groups⟩ goOn =
        goOn ⟨between (some '/') rest, groups⟩ := by
    induction inside generalizing before with
    | nil =>
      rw [List.nil_append, run_append, run_star_stop (run_notClosing_none rest), literal,
        run_exactly_append]
      rfl
    | cons c inside ih =>
      have hinside : ¬ ['*', '/'] <:+: inside :=
        fun hmem => h (hmem.trans (List.suffix_cons c inside).isInfix)
      have hbegins : ¬ "*/".toList <+: (c :: inside) ++ ("*/".toList ++ rest) := by
        refine Text.not_isPrefix_append (fun hpre => h hpre.isInfix) (List.cons_ne_nil c inside) ?_
        rintro d ⟨⟩
        decide
      have hstep : (notClosing : Pattern κ).run
        ⟨between before (c :: (inside ++ ("*/".toList ++ rest))), groups⟩ some =
          some ⟨between (some c) (inside ++ ("*/".toList ++ rest)), groups⟩ :=
            run_notClosing hbegins
      have hhere : (literal "*/").run ⟨between before (c :: (inside ++ ("*/".toList ++ rest))),
        groups⟩ goOn = none :=
        run_exactly_of_not_isPrefix hbegins
      have hlt : (between (some c) (inside ++ ("*/".toList ++ rest))).left <
          (between before (c :: (inside ++ ("*/".toList ++ rest)))).left := by
        simp
      rw [List.cons_append, run_append, run_star_step hstep hlt, hhere, Option.or_none]
      exact ih hinside (some c)
  have hsource : documentation inside ++ rest = "/**".toList ++
    (inside ++ ("*/".toList ++ rest)) := by
    simp [documentation, blockComment]
  rw [docComment, hsource, run_append, run_append, literal, run_exactly_append]
  exact hinside _

/-- The front of a member passes documentation first. -/
theorem run_frontPattern_doc (h : ¬ ['*', '/'] <:+: inside) (hspace : ∀ c ∈ space, Text.isBlank c)
    (hrest : ∀ c ∈ rest.head?, Text.isBlank c = false) (before : Option Char) :
    ∃ docs, textsOf docs = [(.doc, documentation inside)] ∧ ∀ {goOn groups},
      frontPattern.run ⟨between before (documentation inside ++ (space ++ rest)), groups⟩ goOn =
        (goOn ⟨between (behind (some '/') space) rest, docs ++ groups⟩).or
          (goOn ⟨between before (documentation inside ++ (space ++ rest)), groups⟩) := by
  refine ⟨[(.doc, (between before (documentation inside ++ (space ++ rest))).spanTo
    (between (some '/') (space ++ rest)))], ?_, fun {goOn groups} => ?_⟩
  · rw [textsOf, List.map_singleton, spanTo_text]
  · have hslash : ∀ c ∈ (documentation inside ++ (space ++ rest)).head?, Text.isBlank c =
      false := by
      rintro c ⟨⟩
      decide
    have hhere : (sweep Text.isBlank).run
      ⟨between before ([] ++ (documentation inside ++ (space ++ rest))), groups⟩ goOn =
        goOn ⟨between before (documentation inside ++ (space ++ rest)), groups⟩ :=
      run_sweep (List.forall_mem_nil _) hslash
    have hout : (!(before.any Text.isBlank && (documentation inside ++ (space ++ rest)).head?.any
      Text.isBlank)) = true := by
      rw [Bool.not_eq_true', Bool.and_eq_false_iff]
      exact .inr rfl
    rw [List.nil_append] at hhere
    simp only [frontPattern, outsideBlanks, run_append, run_guard, between_before, between_rest,
      hout, if_true, run_maybe, run_group, run_docComment h, run_sweep hspace hrest, hhere]
    rfl

theorem exists_of_blanks_append {blanks more : Text} (hblanks : ∀ c ∈ blanks, Text.isBlank c)
    (hrest : ∀ c ∈ rest.head?, Text.isBlank c = false) (h : blanks ++ more = text ++ rest) :
    ∃ left, text = blanks ++ left ∧ more = left ++ rest := by
  obtain ⟨left, htext, hmore⟩ | ⟨left, hleft, hrest'⟩ := List.append_eq_append_iff.mp h
  · exact ⟨left, htext, hmore⟩
  · cases left with
    | nil => exact ⟨[], by rw [hleft, List.append_nil, List.append_nil], hrest'.symm⟩
    | cons c left =>
      have hblank := hblanks c (by simp [hleft])
      rw [hrest c (by rw [hrest']; rfl)] at hblank
      cases hblank

section Places
variable (h : ∀ preface ∈ prefaces, preface.IsPlain) (hsplit : prefaceText prefaces = front ++ text)
include h hsplit

/-- An annotation that begins in prefaces ends in them. -/
theorem exists_of_annotation_append (hne : text ≠ [])
    (hrest : ∀ c ∈ rest.head?, Text.isBlank c = false)
    (a : AnnotationText) {more : Text} (hsource : text ++ rest = a.source ++ more) :
    ∃ left, text = a.source ++ left ∧ more = left ++ rest := by
  obtain ⟨preface, hmem, passed, part, later, hpreface, hpart, -, rfl⟩ := exists_preface hsplit hne
  rw [List.append_assoc] at hsource
  obtain ⟨left, rfl⟩ := (h preface hmem).holdsAnnotations hpreface hpart a hsource.symm
  have hspace : a.space ++ more = (left ++ prefaceText later) ++ rest := by
    simpa only [AnnotationText.source, List.append_assoc, List.append_cancel_left_eq]
      using hsource.symm
  obtain ⟨behind, hbehind, hmore⟩ := exists_of_blanks_append a.isSpace.2 hrest hspace
  refine ⟨behind, ?_, hmore⟩
  rw [List.append_assoc, hbehind]
  simp only [AnnotationText.source, List.append_assoc]

theorem run_visibility_prefaces (hne : text ≠ []) {goOn : Place κ → Option (Place κ)}
    (hgo : ∀ there last, goOn there = some last → ∃ c more, there.cursor.rest = c :: more ∧
    Text.isBlank c) :
    visibility.run ⟨between before (text ++ rest), groups⟩ goOn = none := by
  obtain ⟨preface, hmem, passed, part, later, hpreface, hpart, -, rfl⟩ := exists_preface hsplit hne
  have hsource : preface.source ≠ [] := by
    rw [hpreface]
    exact List.append_ne_nil_of_right_ne_nil _ hpart
  obtain ⟨⟨inside, stop, hshape, hstop⟩, hwordless⟩ := (h preface hmem).isPassage hsource
  obtain ⟨body, rfl⟩ := exists_stop (hshape.symm.trans hpreface) hpart
  rw [List.append_assoc, List.append_assoc]
  exact run_visibility_wordless hstop hpreface hwordless hgo

/-- Documentation begins in prefaces only where it is written. -/
theorem exists_of_doc_isPrefix (hne : text ≠ []) (hrest : IsAhead rest)
    (hdoc : "/**".toList <+: text ++ rest) :
    ∃ inside behind, IsPlainDoc inside ∧ text = documentation inside ++ behind := by
  obtain ⟨preface, hmem, passed, part, later, hpreface, hpart, hlater, rfl⟩ :=
    exists_preface hsplit hne
  have hahead : IsAhead (prefaceText later ++ rest) :=
    keepsAhead_prefaces (fun preface hmem => h preface (hlater.subset hmem)) rest hrest
  rw [List.append_assoc] at hdoc
  obtain ⟨inside, rfl, rfl⟩ := (h preface hmem).eq_of_isPrefix hpreface hpart hahead.head?_ne hdoc
  exact ⟨inside, _, h _ hmem, rfl⟩

end Places

/-- No visibility that the pattern goes on behind begins the text, and no blank, annotation or end
of documentation. -/
structure Refuses (goOn : Place MemberPart → Option (Place MemberPart)) (rest : Text) : Prop where
  head : ∀ c ∈ rest.head?, isEntryStart c ∧ c ≠ '@'
  run : ∀ before groups,
    (group MemberPart.visibility visibility).run ⟨between before rest, groups⟩ goOn = none

theorem isBlank_of_isEntryStart {c : Char} (h : isEntryStart c) : Text.isBlank c = false := by
  have hall : ∀ c ∈ "/@pgPG".toList, Text.isBlank c = false := by decide
  exact hall c (List.contains_iff_mem.mp h)

section Refused
variable {goOn : Place MemberPart → Option (Place MemberPart)}

theorem Refuses.isBlank (hrest : Refuses goOn rest) : ∀ c ∈ rest.head?, Text.isBlank c = false :=
  fun c hc => isBlank_of_isEntryStart (hrest.head c hc).1

theorem Refuses.isAhead (hrest : Refuses goOn rest) : IsAhead rest := by
  cases rest with
  | nil => exact isAhead_nil
  | cons c rest => exact isAhead_cons (hrest.head c rfl).1

theorem refuses_of_beginsNone (h : ∀ c ∈ rest.head?, isEntryStart c ∧ c ≠ '@')
    (hnone : BeginsNone rest) : Refuses goOn rest :=
  ⟨h, fun _ _ => by rw [run_group, run_visibility_none hnone]⟩

theorem refuses_nil : Refuses goOn [] :=
  refuses_of_beginsNone (by rintro c ⟨⟩) beginsNone_nil

theorem refuses_doc (inside rest : Text) : Refuses goOn (documentation inside ++ rest) := by
  have hslash : EndsWord '/' := by decide
  refine refuses_of_beginsNone ?_ (beginsNone_cons hslash)
  rintro c ⟨⟩
  decide

variable (h : ∀ preface ∈ prefaces, preface.IsPlain) (hrest : Refuses goOn rest)
  (hgo : ∀ there last, goOn there = some last → ∃ c more, there.cursor.rest = c :: more ∧
    Text.isBlank c)
include h hrest

theorem run_annotations_prefaces {next : Place MemberPart → Option (Place MemberPart)}
    (hnext : ∀ {front text}, prefaceText prefaces = front ++ text → ∀ before groups,
      next ⟨between before (text ++ rest), groups⟩ = none)
    (hsplit : prefaceText prefaces = front ++ text) (before : Option Char)
    (groups : List (MemberPart × Span)) :
    (star annotation).run ⟨between before (text ++ rest), groups⟩ next = none := by
  induction hlength : text.length using Nat.strong_induction_on generalizing front text before
    groups with
  | _ n ih =>
    cases hitem : ( annotation : Pattern MemberPart).run ⟨between before (text ++ rest), groups⟩
      some with
    | none => exact (run_star_stop hitem).trans (hnext hsplit before groups)
    | some place =>
      obtain ⟨there, hleads, hthere⟩ := exists_leads hitem
      obtain rfl := Option.some.inj hthere
      obtain ⟨a, ha⟩ := AnnotationText.exists_of_leads hleads
      have hsource : text ++ rest = a.source ++ there.cursor.rest := ha
      have hne : text ≠ [] := by
        rintro rfl
        rw [List.nil_append] at hsource
        exact (hrest.head '@' (by rw [hsource]; rfl)).2 rfl
      obtain ⟨left, rfl, hleft⟩ := exists_of_annotation_append h hsplit hne hrest.isBlank a hsource
      have hlt : there.cursor.left < (between before (a.source ++ left ++ rest)).left := by
        have hless := a.left_lt before there.cursor.before (left ++ rest)
        rw [← hleft, ← eq_between] at hless
        rwa [List.append_assoc, ← hleft]
      have hshorter : left.length < n := by
        rw [← hlength, AnnotationText.source, AnnotationText.mark, List.length_append,
          List.length_append, List.length_cons]
        omega
      rw [← List.append_assoc] at hsplit
      have hmore := ih left.length hshorter hsplit there.cursor.before there.groups rfl
      rw [← hleft, ← eq_between] at hmore
      rw [run_star_step hitem hlt, hmore, Option.none_or]
      rw [List.append_assoc] at hsplit
      exact hnext hsplit before groups

include hgo

theorem run_opening_prefaces (hsplit : prefaceText prefaces = front ++ text) (before : Option Char)
    (groups : List (MemberPart × Span)) : openingPattern.run ⟨between before (text ++ rest), groups⟩
    goOn = none := by
  rw [openingPattern, run_append, run_group]
  refine run_annotations_prefaces h hrest (fun {front text} hsplit before groups => ?_)
    hsplit before groups
  by_cases hne : text = []
  · subst hne
    exact hrest.run _ _
  · rw [run_group]
    exact run_visibility_prefaces h hsplit hne fun there last => hgo _ last

end Refused

section Quiet
variable {pattern finish : Pattern MemberPart} {mark : Char}
    (hpattern : IsMemberPattern pattern finish mark)
  (h : ∀ preface ∈ prefaces, preface.IsPlain)
  (hrest : Refuses (fun behind => signatureRest.run behind fun there => finish.run there some) rest)
include hpattern h hrest

theorem matchAt_prefaces (hsplit : prefaceText prefaces = front ++ text) (hne : text ≠ []) :
    pattern.matchAt (between before (text ++ rest)) = none := by
  have hopening {front text : Text} (hsplit : prefaceText prefaces = front ++ text)
    (before : Option Char)
      (groups : List (MemberPart × Span)) :
        (openingPattern.run ⟨between before (text ++ rest), groups⟩ fun behind =>
        signatureRest.run behind fun there => finish.run there some) = none :=
    run_opening_prefaces h hrest (fun _ _ hlast => begins_signatureRest.exists_cons hlast)
      hsplit before groups
  have hhead {solid : Text} (hsolid : ∀ c ∈ solid.head?, Text.isBlank c = false) :
      ∀ c ∈ (solid ++ rest).head?, Text.isBlank c = false := by
    cases solid with
    | nil => exact hrest.isBlank
    | cons c solid => exact hsolid
  by_cases hdoc : "/**".toList <+: text ++ rest
  · -- from documentation on, what follows it is tried, and then it is tried as no documentation
    obtain ⟨inside, behind, hinside, rfl⟩ := exists_of_doc_isPrefix h hsplit hne hrest.isAhead hdoc
    obtain ⟨blanks, solid, rfl, hblanks, hsolid⟩ := Text.exists_leading_blanks behind
    have hsplit' : prefaceText prefaces = (front ++ (documentation inside ++ blanks)) ++ solid := by
      rw [hsplit]
      simp only [List.append_assoc]
    obtain ⟨docs, -, hrun⟩ := run_frontPattern_doc hinside.not_isInfix hblanks (hhead hsolid) before
    have hnone := hopening hsplit before []
    rw [List.append_assoc, List.append_assoc] at hnone ⊢
    rw [matchAt, hpattern.run_eq, memberStart_run, hrun, hopening hsplit', hnone]
    rfl
  · obtain ⟨blanks, solid, rfl, hblanks, hsolid⟩ := Text.exists_leading_blanks text
    have hsplit' : prefaceText prefaces = (front ++ blanks) ++ solid := by
      rw [hsplit, List.append_assoc]
    rw [List.append_assoc] at hdoc ⊢
    rw [matchAt_front hpattern hblanks (hhead hsolid) hdoc, hopening hsplit']
    exact ite_self none

/-- No member begins in prefaces that stand in front of none. -/
theorem quiet_prefaces : Quiet pattern before (prefaceText prefaces) rest :=
  quiet_of_forall fun _ _ _ hsplit => matchAt_prefaces hpattern h hrest hsplit
    (List.cons_ne_nil _ _)

end Quiet

end Visualforce.Apex
