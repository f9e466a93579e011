import Visualforce.Proofs.Apex.Signature

/-! # Reading members

A scan for properties and one for methods each find the lines of their kind, and nothing in the
lines of the other kind or in the blanks that stand for inner classes.
-/
namespace Visualforce.Apex
open Pattern Cursor

variable {before : Option Char} {rest : Text} {names : List String}

theorem IsFreeOf.of_isInfix {part text : Text} (h : IsFreeOf names text) (hpart : part <:+: text) :
    IsFreeOf names part :=
  fun name hname hinside => h name hname (hinside.trans (hpart.map _))

theorem IsFreeOf.mono {fewer : List String} {text : Text} (h : IsFreeOf names text)
    (hfewer : fewer ⊆ names) :
    IsFreeOf fewer text :=
  fun name hname => h name (hfewer hname)

/-- A keyword does not go on over a character that is no letter. -/
theorem IsFreeOf.append_cons (hlower : ∀ name ∈ names, IsLowerName name.toList)
    {first second : Text} {c : Char}
    (hc : EndsWord c) (hfirst : IsFreeOf names first) (hsecond : IsFreeOf names second) :
    IsFreeOf names (first ++ c :: second) := by
  intro name hname hinside
  rw [List.map_append, List.map_cons] at hinside
  have hnot : c.toLower ∉ name.toList := by
    intro hmem
    have hletter := hlower name hname _ hmem
    rw [hc.2] at hletter
    cases hletter
  rcases Text.isInfix_append_cons hnot hinside with hinside | hinside
  · exact hfirst name hname hinside
  · exact hsecond name hname hinside

theorem IsFreeOf.cons (hlower : ∀ name ∈ names, IsLowerName name.toList) {text : Text} {c : Char}
    (hc : EndsWord c)
    (h : IsFreeOf names text) (hempty : IsFreeOf names []) : IsFreeOf names (c :: text) :=
  hempty.append_cons hlower hc h

theorem isFree_modifiers {modifiers : List Text}
    (h : ∀ word ∈ modifiers, IsOneOf modifierNames word)
    (hrest : IsFree rest) : IsFree (modifiersSource modifiers ++ rest) := by
  induction modifiers with
  | nil => exact hrest
  | cons word modifiers ih =>
    obtain ⟨hword, hmodifiers⟩ := List.forall_mem_cons.mp h
    have hsource : modifiersSource (word :: modifiers) ++ rest = word ++
      ' ' :: (modifiersSource modifiers ++ rest) := by
      simp [modifiersSource]
    have hall : ∀ modifier ∈ modifierNames, ∀ name ∈ "class" :: visibilityNames, ¬ name.toList <:+:
      modifier.toList := by
      decide
    obtain ⟨modifier, hmem, hmodifier⟩ := List.mem_map.mp hword
    rw [hsource]
    refine IsFreeOf.append_cons isLowerName_of_mem endsWord_space (fun name hname => ?_)
      (ih hmodifiers)
    rw [← hmodifier]
    exact hall modifier hmem name hname

theorem isTailChar_of_letter {c : Char} (h : c.toLower.isLower) : isTailChar c := by
  have hall : ∀ n : Fin 128, (Char.ofNat n).toLower.isLower → isTailChar (Char.ofNat n) := by decide
  have hc := hall ⟨c.toNat, toNat_lt_of_toLower (toNat_lt_of_isLower h)⟩
  simp only [Char.ofNat_toNat] at hc
  exact hc h

theorem isTailChar_tail {signature : Signature} (h : signature.IsPlain) :
    ∀ c ∈ signature.tail, isTailChar c := by
  refine List.forall_mem_cons.mpr ⟨by decide, List.forall_mem_append.mpr ⟨fun c hc => ?_, ?_⟩⟩
  · obtain ⟨word, hword, hc⟩ := List.mem_flatMap.mp hc
    rcases List.mem_append.mp hc with hc | hc
    · exact isTailChar_of_letter (toLower_of_isOneOf isLowerName_modifier (h.modifiers word hword)
        c hc)
    · rw [List.mem_singleton.mp hc]
      decide
  · refine List.forall_mem_append.mpr ⟨class_of_type h.type.shape,
      List.forall_mem_cons.mpr ⟨by decide, fun c hc => ?_⟩⟩
    simp [isTailChar, isArgumentChar, isDottedChar, h.name.ascii c hc]

theorem isUnmarked_tail {signature : Signature} (h : signature.IsPlain) :
    ∀ c ∈ signature.tail, isUnmarked c :=
  fun c hc => isUnmarked_of isTailChar (by decide) (isTailChar_tail h c hc)

/-- The characters of lines, annotations apart. -/
def isLineChar (c : Char) : Bool := isTailChar c || "()\x7b\x7d;".toList.contains c

theorem toNat_lt_of_isLineChar {c : Char} (h : isLineChar c) : c.toNat < 128 := by
  rcases Bool.or_eq_true_iff.mp h with h | h
  · exact toNat_lt_of_isTailChar h
  · have hall : ∀ c ∈ "()\x7b\x7d;".toList, c.toNat < 128 := by decide
    exact hall c (List.contains_iff_mem.mp h)

theorem isLineChar_of_isTailChar {c : Char} (h : isTailChar c) : isLineChar c := by
  simp [isLineChar, h]

theorem isLineChar_of_isNamePart {c : Char} (h : Markup.isNamePart c) : isLineChar c := by
  simp [isLineChar, isTailChar, isArgumentChar, isDottedChar, h]

theorem not_mark_of_isLineChar {c : Char} (h : isLineChar c) : c ≠ '/' ∧ c ≠ '@' := by
  constructor
  · rintro rfl
    exact absurd h (by decide)
  · rintro rfl
    exact absurd h (by decide)

/-- The ends of lines, up to the brace. -/
structure IsLineEnd (ending : Text) : Prop where
  chars : ∀ c ∈ ending, isLineChar c
  free : IsFree ending
  front : ∃ c more, ending = c :: more ∧ EndsWord c

theorem isLineEnd_accessors : IsLineEnd " \x7b get; set; ".toList :=
  ⟨by decide, by decide, ' ', "\x7b get; set; ".toList, rfl, by decide⟩

theorem isLineEnd_parameters {parameters : Text} (h : IsParameters parameters) :
    IsLineEnd ('(' :: (parameters ++ ") \x7b ".toList)) := by
  have hparen : EndsWord '(' := by decide
  have hclose : EndsWord ')' := by decide
  refine ⟨List.forall_mem_cons.mpr
    ⟨by decide, List.forall_mem_append.mpr ⟨fun c hc => ?_, by decide⟩⟩, ?_, _, _, rfl, hparen⟩
  · simp [isLineChar, isTailChar, h.chars c hc]
  · exact .cons isLowerName_of_mem hparen
      (.append_cons isLowerName_of_mem hclose h.free (by decide)) (by decide)

theorem IsLineEnd.isFree_tail {signature : Signature} (h : signature.IsPlain) {ending : Text}
    (hending : IsLineEnd ending) :
    IsFree (signature.tail ++ ending) := by
  obtain ⟨c, more, rfl, hc⟩ := hending.front
  have hmore : IsFree more := hending.free.of_isInfix (List.suffix_cons c more).isInfix
  have hname : IsFree (signature.name ++ c :: more) :=
    .append_cons isLowerName_of_mem hc h.name.free hmore
  have htype : IsFree (signature.type ++ ' ' :: (signature.name ++ c :: more)) :=
    .append_cons isLowerName_of_mem endsWord_space h.type.free hname
  have htail : IsFree (' ' :: (modifiersSource signature.modifiers ++
      (signature.type ++ ' ' :: (signature.name ++ c :: more)))) :=
    .cons isLowerName_of_mem endsWord_space (isFree_modifiers h.modifiers htype) (by decide)
  simpa [Signature.tail] using htail

section Pattern
variable {pattern finish : Pattern MemberPart}

/-- The pattern looks for the beginning of a member and goes on at a mark. -/
structure IsMemberPattern (pattern finish : Pattern MemberPart) (mark : Char) : Prop where
  run_eq : ∀ here goOn, pattern.run here goOn = memberStart.run here fun middle =>
    finish.run middle goOn
  begins : Begins finish (· == mark)

variable {mark : Char} (hpattern : IsMemberPattern pattern finish mark)
include hpattern

theorem matchAt_front {passed text : Text} (hpassed : ∀ c ∈ passed, Text.isBlank c)
    (htext : ∀ c ∈ text.head?, Text.isBlank c = false) (hdoc : ¬ "/**".toList <+: passed ++ text) :
    pattern.matchAt (between before (passed ++ text)) =
      if before.any Text.isBlank && (passed ++ text).head?.any Text.isBlank then none
      else (openingPattern.run ⟨between (behind before passed) text, []⟩ fun middle =>
        signatureRest.run middle fun there =>
        finish.run there some).map fun last => ⟨between before (passed ++ text), last.cursor,
          last.groups⟩ := by
  rw [matchAt, hpattern.run_eq, memberStart_run, run_frontPattern hpassed htext hdoc]
  split_ifs
  · rfl
  · rfl

theorem matchAt_front_none {passed text : Text} (hpassed : ∀ c ∈ passed, Text.isBlank c)
    (htext : ∀ c ∈ text.head?, Text.isBlank c = false ∧ c ≠ '/' ∧ c ≠ '@') (h : BeginsNone text) :
    pattern.matchAt (between before (passed ++ text)) = none := by
  rw [matchAt_front hpattern hpassed (fun c hc => (htext c hc).1)
      (not_doc_append hpassed (not_doc_of_head? fun c hc => (htext c hc).2.1)),
    run_opening_none (fun c hc => (htext c hc).2.2) h]
  exact ite_self none

theorem quiet_brace : Quiet pattern before ['\x7d'] rest := by
  have hnone : pattern.matchAt (between before ([] ++ '\x7d' :: rest)) = none := by
    refine matchAt_front_none hpattern (List.forall_mem_nil _) ?_ (beginsNone_cons (by decide))
    rintro c ⟨⟩
    decide
  exact ⟨hnone, trivial⟩

/-- No member begins in a text without keywords. -/
theorem quiet_line {passed : Text} {c : Char} (hpassed : ∀ d ∈ passed, isLineChar d)
    (hfree : IsFree passed)
    (hc : EndsWord c ∧ c ≠ '/' ∧ c ≠ '@')
    (hblank : Text.isBlank c = false ∨ ∀ d ∈ passed, Text.isBlank d = false) :
    Quiet pattern before passed (c :: rest) := by
  induction passed generalizing before with
  | nil => trivial
  | cons d passed ih =>
    obtain ⟨hd, hchars⟩ := List.forall_mem_cons.mp hpassed
    refine ⟨?_, ih hchars (hfree.of_isInfix (List.suffix_cons d passed).isInfix)
      (hblank.imp_right fun h => (List.forall_mem_cons.mp h).2)⟩
    have hsplit : d :: passed = (d :: passed).takeWhile Text.isBlank ++
      (d :: passed).dropWhile Text.isBlank :=
      List.takeWhile_append_dropWhile.symm
    have hfront : ∀ e ∈ (d :: passed).takeWhile Text.isBlank, Text.isBlank e :=
      fun _ => List.mem_takeWhile_imp
    have hback : ∀ e ∈ ((d :: passed).dropWhile Text.isBlank).head?, Text.isBlank e = false :=
      fun e =>
      Text.not_of_mem_head?_dropWhile
    generalize (d :: passed).takeWhile Text.isBlank = front at hsplit hfront
    generalize (d :: passed).dropWhile Text.isBlank = back at hsplit hback
    have hsuffix : back <:+ d :: passed := ⟨front, hsplit.symm⟩
    rw [← List.cons_append, hsplit, List.append_assoc]
    refine matchAt_front_none hpattern hfront (fun e he => ?_) ?_
    · cases back with
      | nil =>
        obtain rfl := Option.some.inj he
        refine ⟨hblank.resolve_right fun hsolid => ?_, hc.2⟩
        have hd := hfront d (by simp [← hsplit.trans (List.append_nil front)])
        rw [hsolid d List.mem_cons_self] at hd
        cases hd
      | cons f back =>
        obtain rfl := Option.some.inj he
        exact ⟨hback f rfl, not_mark_of_isLineChar (hpassed f (hsuffix.subset List.mem_cons_self))⟩
    · refine beginsNone_append (fun e he => ?_) (hfree.of_isInfix hsuffix.isInfix) hc.1
      exact toNat_lt_of_isLineChar (hpassed e (hsuffix.subset he))

section Fails
variable {annotations : List Text} {word : Text}
    (hannotations : ∀ name ∈ annotations, IsIdentifier name)
  (hword : IsOneOf visibilityNames word)
  (hfails : ∀ before groups, signatureRest.run ⟨between before (' ' :: rest), groups⟩
    (fun there => finish.run there some) = none)
include hannotations hword hfails

theorem matchAt_opening_none {passed : Text} (hpassed : ∀ c ∈ passed, Text.isBlank c) :
    pattern.matchAt
      (between before (passed ++ (annotationsSource annotations ++ (word ++ ' ' :: rest)))) =
      none := by
  obtain ⟨found, hsource, -⟩ := AnnotationText.exists_annotations hannotations
  obtain ⟨after, opening, -, hrun⟩ := run_opening _ hword (behind before passed) rest
  rw [← hsource, matchAt_front hpattern hpassed (front_opening hword).1
    (not_doc_append hpassed (front_opening hword).2), hrun, hfails]
  exact ite_self none

theorem quiet_blanks {passed : Text} (hpassed : ∀ c ∈ passed, Text.isBlank c) :
    Quiet pattern before passed (annotationsSource annotations ++ (word ++ ' ' :: rest)) := by
  induction passed generalizing before with
  | nil => trivial
  | cons c passed ih =>
    exact ⟨matchAt_opening_none hpattern hannotations hword hfails hpassed,
      ih (List.forall_mem_cons.mp hpassed).2⟩

omit hannotations in
theorem quiet_visibility : Quiet pattern before word (' ' :: rest) := by
  have hfirst : pattern.matchAt (between before (word ++ ' ' :: rest)) = none :=
    matchAt_opening_none hpattern (List.forall_mem_nil _) hword hfails (List.forall_mem_nil _)
  have hletters := toLower_of_isOneOf isLowerName_visibility hword
  obtain ⟨name, hname, hlower⟩ := List.mem_map.mp hword
  cases word with
  | nil => trivial
  | cons c word =>
    refine ⟨hfirst, quiet_line hpattern (fun d hd => ?_) ?_ (by decide) (.inr fun d hd => ?_)⟩
    · exact isLineChar_of_isTailChar (isTailChar_of_letter (hletters d (.tail c hd)))
    · have hall : ∀ name ∈ visibilityNames, ∀ other ∈ "class" :: visibilityNames,
        ¬ other.toList <:+: name.toList.tail := by
        decide
      have htail : word.map Char.toLower = name.toList.tail := by rw [hlower]; rfl
      intro other hother
      rw [htail]
      exact hall name hname other hother
    · exact (class_of_letter (hletters d (.tail c hd))).1

theorem quiet_opening {gap : Text} (hgap : ∀ c ∈ gap, Text.isBlank c) :
    Quiet pattern before (gap ++ (annotationsSource annotations ++ word)) (' ' :: rest) := by
  induction annotations generalizing before gap with
  | nil =>
    refine .append ?_ (quiet_visibility hpattern hword hfails)
    exact quiet_blanks hpattern hannotations hword hfails hgap
  | cons name annotations ih =>
    obtain ⟨hname, hmore⟩ := List.forall_mem_cons.mp hannotations
    have hsource : annotationsSource (name :: annotations) ++ word =
        '@' :: (name ++ ([' '] ++ (annotationsSource annotations ++ word))) := by
      simp [annotationsSource]
    have hrest : [' '] ++ (annotationsSource annotations ++ word) ++ ' ' :: rest =
        ' ' :: (annotationsSource annotations ++ (word ++ ' ' :: rest)) := by
      simp
    refine .append ?_ ?_
    · rw [List.append_assoc]
      exact quiet_blanks hpattern hannotations hword hfails hgap
    · have hat : pattern.matchAt (between (behind before gap)
          ([] ++ (annotationsSource (name :: annotations) ++ (word ++ ' ' :: rest)))) = none :=
        matchAt_opening_none hpattern hannotations hword hfails (List.forall_mem_nil _)
      rw [hsource]
      refine ⟨?_, .append ?_ (ih hmore (by decide))⟩
      · rw [List.nil_append, ← List.append_assoc, hsource] at hat
        exact hat
      · rw [hrest]
        refine quiet_line hpattern (fun d hd => isLineChar_of_isNamePart (hname.ascii d hd))
          hname.free (by decide)
          (.inr fun d hd => Markup.isBlank_of_isNamePart (hname.ascii d hd))

end Fails

section Line
variable {signature : Signature} {annotations : List Text} {gap : Text} (h : signature.IsPlain)
  (hannotations : ∀ name ∈ annotations, IsIdentifier name) (hgap : ∀ c ∈ gap, Text.isBlank c)
include h

/-- Behind a signature stands another mark than the one looked for. -/
theorem run_tail_none {groups : List (MemberPart × Span)} {space : Text} {other : Char}
    (hspace : ∀ c ∈ space, isUnmarked c) (hmark : isUnmarked mark = false)
    (hother : isUnmarked other = false)
    (hne : other ≠ mark) :
    signatureRest.run ⟨between before (signature.tail ++ (space ++ other :: rest)), groups⟩
      (fun there => finish.run there some) = none := by
  rw [← List.append_assoc]
  refine run_signatureRest_none (List.forall_mem_append.mpr ⟨isUnmarked_tail h, hspace⟩)
    hother hmark hne ?_
  intro before text groups htext
  exact hpattern.begins before text groups some fun c hc => beq_false_of_ne (htext c hc)

include hannotations hgap

theorem quiet_member {ending : Text} (hending : IsLineEnd ending)
    (hfails : ∀ before groups, signatureRest.run
      ⟨between before (signature.tail ++ (ending ++ '\x7d' :: rest)), groups⟩
        (fun there => finish.run there some) = none) :
    Quiet pattern before
      (gap ++ (annotationsSource annotations ++ (signature.source ++ (ending ++ ['\x7d']))))
      rest := by
  have hsource : gap ++
    (annotationsSource annotations ++ (signature.source ++ (ending ++ ['\x7d']))) =
      (gap ++ (annotationsSource annotations ++ signature.visibility)) ++
        ((signature.tail ++ ending) ++ ['\x7d']) := by
    simp [Signature.source]
  have hrest : (signature.tail ++ ending) ++ ['\x7d'] ++ rest = signature.tail ++
    (ending ++ '\x7d' :: rest) := by
    simp
  rw [hsource]
  refine .append ?_ (.append ?_ ?_)
  · rw [hrest]
    exact quiet_opening hpattern hannotations h.visibility hfails hgap
  · refine quiet_line hpattern ?_ (hending.isFree_tail h) (by decide) (.inl (by decide))
    exact List.forall_mem_append.mpr ⟨fun c hc => isLineChar_of_isTailChar (isTailChar_tail h c hc),
      hending.chars⟩
  · exact quiet_brace hpattern

end Line

/-- The texts of the groups of a signature behind these annotations, the latest first. -/
def Signature.texts (signature : Signature) (annotations : Text) : List (MemberPart × Text) :=
  [(.name, signature.name), (.type, signature.type),
    (.modifiers, modifiersSource signature.modifiers), (.visibility, signature.visibility),
    (.annotations, annotations)]

section Found
variable {signature : Signature} {annotations : List AnnotationText} {space : Text} {stop : Cursor}
  (h : signature.IsPlain) (hspace : space = [] ∨ space = [' ']) (hmark : IsMemberMark mark)
  (more : List (MemberPart × Span))
  (hfinish : ∀ after groups, finish.run ⟨between after (mark :: rest), groups⟩ some =
    some ⟨stop, more ++ groups⟩)
include h hspace hmark hfinish

omit hpattern in
theorem run_member (before : Option Char) : ∃ found,
    textsOf found = textsOf more ++ signature.texts (annotations.flatMap AnnotationText.source) ∧
    ∀ groups,
      (openingPattern.run ⟨between before
          (annotations.flatMap AnnotationText.source ++
            (signature.source ++ (space ++ mark :: rest))), groups⟩
        fun middle => signatureRest.run middle fun there => finish.run there some) =
          some ⟨stop, found ++ groups⟩ := by
  obtain ⟨words, hwords⟩ : ∃ words, signature.tail = ' ' :: words := ⟨_, rfl⟩
  have hsource : signature.source ++ (space ++ mark :: rest) =
      signature.visibility ++ ' ' :: (words ++ (space ++ mark :: rest)) := by
    rw [Signature.source, hwords, List.append_assoc, List.cons_append]
  obtain ⟨afterOpening, opening, hopening, hrunOpening⟩ :=
    run_opening annotations h.visibility before (words ++ (space ++ mark :: rest))
  obtain ⟨afterTail, tail, htail, hrunTail⟩ := run_signatureRest h hspace hmark afterOpening rest
  rw [hwords] at hrunTail
  refine ⟨more ++ (tail ++ opening), ?_, fun groups => ?_⟩
  · simp only [textsOf, List.map_append] at hopening htail ⊢
    rw [hopening, htail]
    rfl
  · rw [hsource, hrunOpening, List.append_assoc, List.append_assoc]
    exact hrunTail (hfinish afterTail (tail ++ (opening ++ groups)))

theorem exists_matchAt {front : Text} {after : Option Char} {docs : List (MemberPart × Span)}
    (hfront : Passes before front
      (annotations.flatMap AnnotationText.source ++ (signature.source ++ (space ++ mark :: rest)))
        after docs) :
    ∃ hit, pattern.matchAt (between before
        (front ++ (annotations.flatMap AnnotationText.source ++
          (signature.source ++ (space ++ mark :: rest))))) = some hit ∧
      hit.stop = stop ∧
      textsOf hit.groups = textsOf more ++
        (signature.texts (annotations.flatMap AnnotationText.source) ++ textsOf docs) := by
  obtain ⟨found, htexts, hrun⟩ : ∃ found, textsOf found = textsOf more ++
      signature.texts (annotations.flatMap AnnotationText.source) ∧ _ :=
        run_member h hspace hmark more hfinish after
  refine ⟨⟨between before
    (front ++ (annotations.flatMap AnnotationText.source ++
    (signature.source ++ (space ++ mark :: rest)))), stop, found ++ docs⟩, ?_, rfl, ?_⟩
  · rw [matchAt, hpattern.run_eq, memberStart_run, hfront (hrun docs)]
    rfl
  · rw [textsOf, List.map_append, ← List.append_assoc, ← htexts]
    rfl

end Found

end Pattern

end Visualforce.Apex
