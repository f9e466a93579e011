import Visualforce.Proofs.Apex.Annotations
import Visualforce.Proofs.Data.Value
import Visualforce.Proofs.Text.Trim

/-! # Reading signatures

Where a signature is written, a member begins there and nowhere else in its line: the annotations
and the visibility are passed in one way only, and what is behind them holds no further
visibility.
-/
namespace Visualforce.Apex
open Pattern Cursor

variable {κ : Type} {groups : List (κ × Span)} {before : Option Char} {rest : Text}
variable {goOn : Place κ → Option (Place κ)} {last : Place κ}

/-- The characters of what follows a visibility. -/
def isTailChar (c : Char) : Bool := isArgumentChar c || "[]".toList.contains c

theorem toNat_lt_of_isTailChar {c : Char} (h : isTailChar c) : c.toNat < 128 := by
  simp only [isTailChar, isArgumentChar, isDottedChar, Bool.or_eq_true, beq_iff_eq] at h
  rcases h with (((((h | rfl) | rfl) | rfl) | rfl) | rfl) | h
  · exact Markup.toNat_lt_of_isNamePart h
  · decide
  · decide
  · decide
  · decide
  · decide
  · have hall : ∀ c ∈ "[]".toList, c.toNat < 128 := by decide
    exact hall c (List.contains_iff_mem.mp h)

/-- How a class treats these characters is settled by looking at ASCII. -/
theorem class_of_isTailChar (accepts : Char → Bool) (b : Bool)
    (h : ∀ n : Fin 128, isTailChar (Char.ofNat n) → accepts (Char.ofNat n) = b) {c : Char}
    (hc : isTailChar c) : accepts c = b := by
  have hchar := h ⟨c.toNat, toNat_lt_of_isTailChar hc⟩
  simp only [Char.ofNat_toNat] at hchar
  exact hchar hc

/-- A character that ends a word of letters. -/
def EndsWord (c : Char) : Prop := c.toNat < 128 ∧ c.toLower.isLower = false

instance (c : Char) : Decidable (EndsWord c) := inferInstanceAs (Decidable (_ ∧ _))

theorem not_mem_of_sameUpToCase {name word : Text} (hname : IsLowerName name)
    (h : SameUpToCase name word) {c : Char}
    (hc : EndsWord c) : c ∉ word := by
  intro hmem
  obtain ⟨d, hd, hsame⟩ := h.exists_of_mem hmem
  have hlower := hname d hd
  rw [← (sameUpToCase_iff hlower hc.1).mp hsame, hc.2] at hlower
  cases hlower

/-- What a character is not part of lies before it. -/
theorem isPrefix_of_not_mem {word passed : Text} {c : Char} (hc : c ∉ word)
    (h : word <+: passed ++ c :: rest) : word <+: passed := by
  have hstop : passed ++ [c] <+: passed ++ c :: rest := ⟨rest, by simp⟩
  rcases List.prefix_or_prefix_of_prefix h hstop with hword | hword
  · rcases List.prefix_concat_iff.mp hword with rfl | hword
    · exact absurd (by simp) hc
    · exact hword
  · exact absurd (hword.subset (by simp)) hc

theorem run_keyword {names : List String} (hlower : ∀ name ∈ names, IsLowerName name.toList)
    (hapart : ∀ name ∈ names, ∀ other ∈ names, name.toList <+: other.toList → name = other)
    {word : Text}
    (hword : IsOneOf names word) {c : Char} (hc : EndsWord c) :
    (keyword names).run ⟨between before (word ++ c :: rest), groups⟩ goOn =
      goOn ⟨between (behind before word) (c :: rest), groups⟩ := by
  obtain ⟨name, hmem, hname⟩ := List.mem_map.mp hword
  have hself : (anyCase name).run ⟨between before (word ++ c :: rest), groups⟩ goOn =
      goOn ⟨between (behind before word) (c :: rest), groups⟩ :=
    run_caseless_of_sameUpToCase (hname ▸ sameUpToCase_of_toLower (hname ▸ hlower name hmem))
  have hascii : ∀ d ∈ word, d.toNat < 128 := by
    intro d hd
    have hd := hlower name hmem d.toLower (hname ▸ List.mem_map_of_mem hd)
    exact toNat_lt_of_toLower (toNat_lt_of_isLower hd)
  rw [keyword, run_firstOf, List.findSome?_map, ← hself]
  refine findSome?_eq (f := fun name : String => (anyCase name).run _ goOn) hmem fun other hother =>
    ?_
  by_cases heq : other = name
  · exact .inl (heq ▸ rfl)
  · refine .inr (Option.eq_none_iff_forall_ne_some.mpr fun last hlast =>
      heq (hapart other hother name hmem ?_))
    obtain ⟨there, hleads, -⟩ := exists_leads hlast
    obtain ⟨found, hrest, hsame⟩ := hleads.caseless_inv
    have hfound : found <+: word :=
      isPrefix_of_not_mem (not_mem_of_sameUpToCase (hlower other hother) hsame hc) ⟨_, hrest.symm⟩
    rw [hname, ← toLower_of_sameUpToCase (hlower other hother)
      (fun d hd => hascii d (hfound.subset hd)) hsame]
    exact hfound.map _

/-- No word that begins a declaration stands at the front of the text. -/
def BeginsNone (text : Text) : Prop :=
  ∀ name ∈ "class" :: visibilityNames, ∀ word, SameUpToCase name.toList word → ¬ word <+: text

theorem isLowerName_of_mem : ∀ name ∈ "class" :: visibilityNames, IsLowerName name.toList := by
  have hall : ∀ name ∈ "class" :: visibilityNames, ∀ c ∈ name.toList, c.isLower := by decide
  exact hall

theorem beginsNone_append {passed : Text} (hpassed : ∀ c ∈ passed, c.toNat < 128)
    (hfree : IsFree passed)
    {c : Char} (hc : EndsWord c) : BeginsNone (passed ++ c :: rest) := by
  intro name hname word hsame hbegins
  have hlower := isLowerName_of_mem name hname
  have hword := isPrefix_of_not_mem (not_mem_of_sameUpToCase hlower hsame hc) hbegins
  refine hfree name hname ?_
  rw [← toLower_of_sameUpToCase hlower (fun d hd => hpassed d (hword.subset hd)) hsame]
  exact (hword.map _).isInfix

theorem beginsNone_cons {c : Char} (hc : EndsWord c) : BeginsNone (c :: rest) :=
  beginsNone_append (List.forall_mem_nil _) (by decide) hc

theorem run_visibility_none {text : Text} (h : BeginsNone text) :
    visibility.run ⟨between before text, groups⟩ goOn = none := by
  refine Option.eq_none_iff_forall_ne_some.mpr fun last hlast => ?_
  obtain ⟨there, hleads, -⟩ := exists_leads hlast
  obtain ⟨pattern, hpattern, hleads⟩ := hleads.firstOf_inv
  obtain ⟨name, hname, rfl⟩ := List.mem_map.mp hpattern
  obtain ⟨word, hrest, hsame⟩ := hleads.caseless_inv
  exact h name (.tail _ hname) word hsame ⟨_, hrest.symm⟩

/-- What follows the visibility of a member, up to the mark behind its name. -/
def signatureRest : Pattern MemberPart :=
  blanks ++ group .modifiers (star modifier) ++ group .type typeName ++ blanks ++
    group .name (plus wordChar) ++
    star blank

theorem begins_blanks : Begins (blanks : Pattern κ) Text.isBlank := (Begins.one _).append _

theorem begins_signatureRest : Begins signatureRest Text.isBlank :=
  (((( begins_blanks.append _).append _).append _).append _).append _

def textsOf (groups : List (MemberPart × Span)) : List (MemberPart × Text) :=
  groups.map fun entry => (entry.1, entry.2.text)

section Front
variable {goOn : Place MemberPart → Option (Place MemberPart)} {passed : Text}

/-- What can stand in front of the annotations. -/
def frontPattern : Pattern MemberPart := outsideBlanks ++ maybe (group .doc docComment) ++
    sweep Text.isBlank

theorem run_frontPattern {text : Text} {groups : List (MemberPart × Span)}
    (hpassed : ∀ c ∈ passed, Text.isBlank c)
    (htext : ∀ c ∈ text.head?, Text.isBlank c = false) (hdoc : ¬ "/**".toList <+: passed ++ text) :
    frontPattern.run ⟨between before (passed ++ text), groups⟩ goOn =
      if before.any Text.isBlank && (passed ++ text).head?.any Text.isBlank then none
      else goOn ⟨between (behind before passed) text, groups⟩ := by
  have hnone : ∀ goOn, (group .doc docComment : Pattern MemberPart).run
    ⟨between before (passed ++ text), groups⟩ goOn =
      none := fun goOn => run_exactly_of_not_isPrefix hdoc
  simp only [frontPattern, outsideBlanks, run_append, run_guard, run_maybe, hnone, Option.none_or,
    run_sweep hpassed htext, between_before, between_rest, Bool.not_eq_true']
  split_ifs with hout hin hin <;> simp_all

/-- No documentation begins with a blank. -/
theorem not_doc_append {text : Text} (hpassed : ∀ c ∈ passed, Text.isBlank c)
    (h : ¬ "/**".toList <+: text) :
    ¬ "/**".toList <+: passed ++ text := by
  cases passed with
  | nil => exact h
  | cons c passed =>
    rintro ⟨more, hmore⟩
    rw [← (List.cons.inj hmore).1] at hpassed
    exact absurd (hpassed '/' List.mem_cons_self) (by decide)

theorem not_doc_of_head? {text : Text} (h : ∀ c ∈ text.head?, c ≠ '/') :
    ¬ "/**".toList <+: text := by
  rintro ⟨more, rfl⟩
  exact h '/' rfl rfl

/-- What stands before the modifiers. -/
def openingPattern : Pattern MemberPart :=
  group MemberPart.annotations (star annotation) ++ group MemberPart.visibility visibility

theorem memberStart_run {here : Place MemberPart} :
    memberStart.run here goOn = frontPattern.run here fun middle =>
    openingPattern.run middle fun behind => signatureRest.run behind goOn := by
  simp only [memberStart, frontPattern, openingPattern, signatureRest, run_append]

theorem run_opening_none {text : Text} {groups : List (MemberPart × Span)}
    (hat : ∀ c ∈ text.head?, c ≠ '@')
    (h : BeginsNone text) : openingPattern.run ⟨between before text, groups⟩ goOn = none := by
  rw [openingPattern, run_append, run_group, run_star_stop]
  · exact run_visibility_none h
  · exact AnnotationText.begins_annotation _ _ _ _ fun c hc => beq_false_of_ne (hat c hc)

theorem endsWord_space : EndsWord ' ' := by decide

theorem toLower_of_isOneOf {names : List String} (hlower : ∀ name ∈ names, IsLowerName name.toList)
    {word : Text}
    (h : IsOneOf names word) : ∀ c ∈ word, c.toLower.isLower := by
  obtain ⟨name, hmem, hname⟩ := List.mem_map.mp h
  intro c hc
  exact hlower name hmem _ (hname ▸ List.mem_map_of_mem hc)

theorem isLowerName_visibility : ∀ name ∈ visibilityNames, IsLowerName name.toList :=
  fun name hname => isLowerName_of_mem name (.tail _ hname)

theorem run_visibility {word : Text} {groups : List (κ × Span)} {goOn : Place κ → Option (Place κ)}
    (h : IsOneOf visibilityNames word) :
    visibility.run ⟨between before (word ++ ' ' :: rest), groups⟩ goOn =
      goOn ⟨between (behind before word) (' ' :: rest), groups⟩ :=
  run_keyword isLowerName_visibility (by decide) h endsWord_space

theorem head?_visibility {word : Text} (h : IsOneOf visibilityNames word) :
    ∀ c ∈ (word ++ ' ' :: rest).head?, c.toLower.isLower := by
  cases word with
  | nil => exact absurd h (by decide)
  | cons d word =>
    intro c hc
    obtain rfl := Option.some.inj hc
    exact toLower_of_isOneOf isLowerName_visibility h d List.mem_cons_self

theorem class_of_letter {c : Char} (h : c.toLower.isLower) : Text.isBlank c = false ∧ c ≠ '/' ∧
    c ≠ '@' := by
  have hall : ∀ n : Fin 128, (Char.ofNat n).toLower.isLower → Text.isBlank (Char.ofNat n) = false ∧
      Char.ofNat n ≠ '/' ∧ Char.ofNat n ≠ '@' := by decide
  have hc := hall ⟨c.toNat, toNat_lt_of_toLower (toNat_lt_of_isLower h)⟩
  simp only [Char.ofNat_toNat] at hc
  exact hc h

/-- What begins a member is neither blank nor documentation. -/
theorem front_opening {annotations : List AnnotationText} {word : Text}
    (h : IsOneOf visibilityNames word) :
    (∀ c ∈ (annotations.flatMap AnnotationText.source ++ (word ++ ' ' :: rest)).head?,
      Text.isBlank c = false) ∧
      ¬ "/**".toList <+: annotations.flatMap AnnotationText.source ++ (word ++ ' ' :: rest) := by
  have hhead : ∀ c ∈ (annotations.flatMap AnnotationText.source ++ (word ++ ' ' :: rest)).head?,
      Text.isBlank c = false ∧ c ≠ '/' := by
    intro c hc
    rcases AnnotationText.head?_flatMap_source c hc with rfl | hc
    · decide
    · obtain ⟨hblank, hslash, -⟩ := class_of_letter (head?_visibility h c hc)
      exact ⟨hblank, hslash⟩
  exact ⟨fun c hc => (hhead c hc).1, not_doc_of_head? fun c hc => (hhead c hc).2⟩

/-- The front of a member leads over this text, with these groups. -/
def Passes (before : Option Char) (front text : Text) (after : Option Char)
    (docs : List (MemberPart × Span)) : Prop :=
  ∀ {goOn last}, goOn ⟨between after text, docs⟩ = some last →
    frontPattern.run ⟨between before (front ++ text), []⟩ goOn = some last

theorem exists_source (signature : Signature) (rest : Text) :
    ∃ words, signature.source ++ rest = signature.visibility ++ ' ' :: words :=
  ⟨_, by rw [Signature.source, Signature.tail, List.append_assoc, List.cons_append]⟩

theorem passes_gap (annotations : List AnnotationText) {signature : Signature}
    (h : signature.IsPlain)
    (hpassed : ∀ c ∈ passed, Text.isBlank c) (hbefore : before.any Text.isBlank = false) :
    Passes before passed (annotations.flatMap AnnotationText.source ++ (signature.source ++ rest))
      (behind before passed) [] := by
  intro goOn last hgo
  obtain ⟨words, hwords⟩ := exists_source signature rest
  rw [hwords] at hgo ⊢
  rw [run_frontPattern hpassed (front_opening h.visibility).1
    (not_doc_append hpassed (front_opening h.visibility).2), hbefore, Bool.false_and,
      if_neg Bool.false_ne_true, hgo]

theorem run_opening (annotations : List AnnotationText) {word : Text}
    (hword : IsOneOf visibilityNames word)
    (before : Option Char) (rest : Text) : ∃ after found,
      textsOf found =
      [(.visibility, word), (.annotations, annotations.flatMap AnnotationText.source)] ∧
      ∀ {goOn groups}, openingPattern.run
          ⟨between before (annotations.flatMap AnnotationText.source ++ (word ++ ' ' :: rest)),
            groups⟩ goOn =
        goOn ⟨between after (' ' :: rest), found ++ groups⟩ := by
  let source := annotations.flatMap AnnotationText.source
  refine ⟨behind (behind before source) word,
    [(.visibility, (between (behind before source) (word ++ ' ' :: rest)).spanTo
      (between (behind (behind before source) word) (' ' :: rest))),
    (.annotations, (between before (source ++ (word ++ ' ' :: rest))).spanTo
      (between (behind before source) (word ++ ' ' :: rest)))], ?_, fun {goOn groups} => ?_⟩
  · simp [textsOf, spanTo_text, source]
  · rw [openingPattern, run_append, run_group, AnnotationText.run_flatMap_source]
    · rw [run_group, run_visibility hword]
      rfl
    · intro c hc
      obtain ⟨hblank, -, hat⟩ := class_of_letter (head?_visibility hword c hc)
      exact ⟨hblank, hat⟩
    · intro before more groups
      have hat : EndsWord '@' := by decide
      change (group MemberPart.visibility visibility).run _ _ = none
      rw [run_group]
      exact run_visibility_none (beginsNone_cons hat)

end Front

def marks : Text := "()\x7b\x7d;@/".toList

def isUnmarked (c : Char) : Bool := !marks.contains c

theorem isUnmarked_of (passes : Char → Bool) (h : ∀ c ∈ marks, passes c = false) {c : Char}
    (hc : passes c) :
    isUnmarked c := by
  rw [isUnmarked, Bool.not_eq_true', ← Bool.not_eq_true, List.contains_iff_mem]
  intro hmem
  rw [h c hmem] at hc
  cases hc

theorem passesOnly_one {passes : Char → Bool} (h : ∀ c ∈ marks, passes c = false) :
    PassesOnly isUnmarked (one passes : Pattern κ) :=
  .one fun _ hc => isUnmarked_of passes h hc

theorem passesOnly_anyCase {name : String} (h : IsLowerName name.toList) :
    PassesOnly isUnmarked (anyCase name : Pattern κ) := by
  refine .caseless fun c hc d hsame => ?_
  have hmark : ∀ d ∈ marks, EndsWord d := by decide
  refine isUnmarked_of (Text.sameUpToCase c) (fun d hd => ?_) hsame
  rw [← Bool.not_eq_true]
  intro hsame
  obtain ⟨hascii, hlow⟩ := hmark d hd
  rw [(sameUpToCase_iff (h c hc) hascii).mp hsame, h c hc] at hlow
  cases hlow

theorem passesOnly_keyword {names : List String} (h : ∀ name ∈ names, IsLowerName name.toList) :
    PassesOnly isUnmarked (keyword names : Pattern κ) :=
  .firstOf (List.forall_mem_map.mpr fun name hname => passesOnly_anyCase (h name hname))

theorem passesOnly_blanks : PassesOnly isUnmarked (blanks : Pattern κ) :=
  .plus (passesOnly_one (by decide))

theorem passesOnly_typeName : PassesOnly isUnmarked (typeName : Pattern κ) := by
  have harguments : PassesOnly isUnmarked
      (star blank ++ char '<' ++ star (one isTypeArgumentChar) ++ char '>' : Pattern κ) :=
    (((PassesOnly.star (passesOnly_one (by decide))).append (passesOnly_one (by decide))).append
      (.star (passesOnly_one (by decide)))).append (passesOnly_one (by decide))
  have harray : PassesOnly isUnmarked (literal "[]" : Pattern κ) :=
    (passesOnly_one (by decide)).append ((passesOnly_one (by decide)).append .empty)
  exact ((PassesOnly.plus (passesOnly_one (by decide))).append harguments.maybe).append harray.maybe

theorem isLowerName_modifier : ∀ name ∈ modifierNames, IsLowerName name.toList := by
  have hall : ∀ name ∈ modifierNames, ∀ c ∈ name.toList, c.isLower := by decide
  exact hall

theorem passesOnly_signatureRest : PassesOnly isUnmarked signatureRest := by
  have hmodifier : PassesOnly isUnmarked (modifier : Pattern MemberPart) :=
    (passesOnly_keyword isLowerName_modifier).append passesOnly_blanks
  have hname : PassesOnly isUnmarked (plus wordChar : Pattern MemberPart) :=
    .plus (passesOnly_one (by decide))
  exact ((((passesOnly_blanks.append (hmodifier.star.group _)).append
    (passesOnly_typeName.group _)).append
    passesOnly_blanks).append (hname.group _)).append (.star (passesOnly_one (by decide)))

theorem find?_mark {passed : Text} (h : ∀ c ∈ passed, isUnmarked c) {mark : Char}
    (hmark : isUnmarked mark = false) :
    (passed ++ mark :: rest).find? (!isUnmarked ·) = some mark := by
  have hnone : passed.find? (!isUnmarked ·) = none := List.find?_eq_none.mpr fun c hc => by
    simp [h c hc]
  rw [List.find?_append, hnone, Option.none_or, List.find?_cons_of_pos (by simp [hmark])]

/-- What follows a visibility leads to the first mark ahead. -/
theorem run_signatureRest_none {goOn : Place MemberPart → Option (Place MemberPart)} {passed : Text}
    {mark other : Char}
    {groups : List (MemberPart × Span)} (hpassed : ∀ c ∈ passed, isUnmarked c)
    (hmark : isUnmarked mark = false)
    (hother : isUnmarked other = false) (hne : mark ≠ other)
    (hgo : ∀ before text groups, (∀ c ∈ text.head?, c ≠ other) →
    goOn ⟨between before text, groups⟩ = none) :
    signatureRest.run ⟨between before (passed ++ mark :: rest), groups⟩ goOn = none := by
  refine Option.eq_none_iff_forall_ne_some.mpr fun last hlast => ?_
  obtain ⟨there, hleads, hthere⟩ := exists_leads hlast
  obtain ⟨front, hrest, hfront⟩ := passesOnly_signatureRest hleads
  have hthere : ∃ more, there.cursor.rest = other :: more := by
    have hcursor : there = ⟨between there.cursor.before there.cursor.rest, there.groups⟩ := by
      rw [← eq_between]
    by_contra hnot
    rw [hcursor, hgo] at hthere
    · cases hthere
    · intro c hc heq
      obtain ⟨more, hmore⟩ := List.head?_eq_some_iff.mp hc
      exact hnot ⟨more, heq ▸ hmore⟩
  obtain ⟨more, hmore⟩ := hthere
  have hsame : passed ++ mark :: rest = front ++ other :: more := by
    rw [← hmore]
    exact hrest
  have hfind : (passed ++ mark :: rest).find? (!isUnmarked ·) = some mark :=
    find?_mark hpassed hmark
  rw [hsame, find?_mark hfront hother] at hfind
  exact hne (Option.some.inj hfind).symm

theorem run_modifier {word : Text} (h : IsOneOf modifierNames word)
    (hrest : ∀ c ∈ rest.head?, Text.isBlank c = false) :
    (modifier : Pattern κ).run ⟨between before (word ++ ' ' :: rest), groups⟩ some =
      some ⟨between (some ' ') rest, groups⟩ := by
  change (keyword modifierNames ++ blanks : Pattern κ).run _ some = _
  rw [run_append, run_keyword isLowerName_modifier (by decide) h endsWord_space]
  exact run_plusOne_of_some (List.cons_ne_nil ' ' []) (by decide) hrest rfl

theorem class_of_type {type : Text} (h : HasTypeShape type) : ∀ c ∈ type, isTailChar c := by
  obtain ⟨-, hname, harguments, harray⟩ := h
  refine List.forall_mem_append.mpr ⟨fun c hc => ?_, List.forall_mem_append.mpr ⟨?_, ?_⟩⟩
  · simp [isTailChar, isArgumentChar, hname c hc]
  · rcases harguments with rfl | ⟨inside, rfl, hinside⟩
    · exact List.forall_mem_nil _
    · refine List.forall_mem_append.mpr ⟨List.forall_mem_cons.mpr ⟨by decide, fun c hc => ?_⟩, by
        decide⟩
      simp [isTailChar, hinside c hc]
  · rcases harray with rfl | rfl
    · exact List.forall_mem_nil _
    · decide

theorem eq_space_of_isTailChar {c : Char} (hc : isTailChar c) (hblank : Text.isBlank c) :
    c = ' ' := by
  have hall := class_of_isTailChar (fun c => !Text.isBlank c || c == ' ') true (by decide) hc
  simpa [hblank] using hall

/-- A space in a type stands behind an angle bracket. -/
theorem mem_of_type_eq {type front behind : Text} (h : HasTypeShape type)
    (heq : type = front ++ ' ' :: behind) :
    '<' ∈ front := by
  obtain ⟨-, hname, harguments, harray⟩ := h
  rename_i name arguments array
  have hspace : ' ' ∉ name := fun hmem => absurd (hname ' ' hmem) (by decide)
  rcases harguments with rfl | ⟨inside, rfl, -⟩
  · have hmem : ' ' ∈ name ++ ([] ++ array) := heq ▸ List.mem_append_right front List.mem_cons_self
    rcases List.mem_append.mp hmem with hmem | hmem
    · exact absurd hmem hspace
    · rcases harray with rfl | rfl
      · cases hmem
      · exact absurd hmem (by decide)
  · by_contra hnot
    have hopen : name ++ '<' :: (inside ++ ['>'] ++ array) = front ++ ' ' :: behind := by
      rw [← heq, List.cons_append, List.cons_append]
    obtain ⟨left, rfl⟩ : front <+: name := isPrefix_of_not_mem hnot ⟨_, hopen.symm⟩
    rw [List.append_assoc, List.append_cancel_left_eq] at hopen
    cases left with
    | nil => exact absurd (List.cons.inj hopen).1 (by decide)
    | cons c left => exact hspace (by simp [(List.cons.inj hopen).1])

theorem run_modifier_none {type : Text} (h : IsType type) :
    (modifier : Pattern κ).run ⟨between before (type ++ ' ' :: rest), groups⟩ some = none := by
  refine Option.eq_none_iff_forall_ne_some.mpr fun last hlast => ?_
  obtain ⟨there, hleads, -⟩ := exists_leads hlast
  obtain ⟨middle, hword, hblanks⟩ := leads_append.mp hleads
  obtain ⟨pattern, hpattern, hword⟩ := hword.firstOf_inv
  obtain ⟨name, hname, rfl⟩ := List.mem_map.mp hpattern
  obtain ⟨found, hfound, hsame⟩ := hword.caseless_inv
  obtain ⟨next, hone, -⟩ := leads_append.mp hblanks
  obtain ⟨c, hc, hblank, -⟩ := hone.one_inv
  have hlower := isLowerName_modifier name hname
  obtain ⟨left, rfl⟩ : found <+: type :=
    isPrefix_of_not_mem (not_mem_of_sameUpToCase hlower hsame endsWord_space) ⟨_, hfound.symm⟩
  have hline := class_of_type h.shape
  cases left with
  | nil =>
    rw [List.append_nil] at h hline
    refine h.proper (List.mem_map.mpr ⟨name, hname, ?_⟩)
    exact (toLower_of_sameUpToCase hlower (fun d hd => toNat_lt_of_isTailChar (hline d hd))
      hsame).symm
  | cons d left =>
    have hd : d = c := by
      have heq : (d :: left) ++ ' ' :: rest = c :: next.cursor.rest := by
        rw [← hc]
        rw [List.append_assoc] at hfound
        exact List.append_cancel_left hfound
      exact (List.cons.inj heq).1
    subst hd
    obtain rfl := eq_space_of_isTailChar (hline d (by simp)) hblank
    exact not_mem_of_sameUpToCase hlower hsame (by decide : EndsWord '<')
      (mem_of_type_eq h.shape rfl)

theorem head?_modifiers {modifiers : List Text} (h : ∀ word ∈ modifiers, IsOneOf modifierNames word)
    (hrest : ∀ c ∈ rest.head?, Text.isBlank c = false) :
    ∀ c ∈ (modifiersSource modifiers ++ rest).head?, Text.isBlank c = false := by
  cases modifiers with
  | nil => exact hrest
  | cons word modifiers =>
    have hword := h word List.mem_cons_self
    cases word with
    | nil => exact absurd hword (by decide)
    | cons d word =>
      intro c hc
      obtain rfl := Option.some.inj hc
      exact (class_of_letter (toLower_of_isOneOf isLowerName_modifier hword d List.mem_cons_self)).1

theorem run_modifiers {goOn : Place κ → Option (Place κ)} {modifiers : List Text}
    (h : ∀ word ∈ modifiers, IsOneOf modifierNames word)
    (hrest : ∀ c ∈ rest.head?, Text.isBlank c = false)
    (hstop : ∀ before, (modifier : Pattern κ).run ⟨between before rest, groups⟩ some = none)
    (hgo : goOn ⟨between (behind before (modifiersSource modifiers)) rest, groups⟩ = some last) :
    (star modifier).run ⟨between before (modifiersSource modifiers ++ rest), groups⟩ goOn =
      some last := by
  induction modifiers generalizing before with
  | nil => exact (run_star_stop (hstop before)).trans hgo
  | cons word modifiers ih =>
    obtain ⟨hword, hmodifiers⟩ := List.forall_mem_cons.mp h
    have hsource : modifiersSource (word :: modifiers) ++ rest = word ++
      ' ' :: (modifiersSource modifiers ++ rest) := by
      simp [modifiersSource]
    rw [hsource]
    refine run_star_step_of_some (run_modifier hword (head?_modifiers hmodifiers hrest))
      (by simp; omega) (ih hmodifiers ?_)
    simpa [modifiersSource, behind_append] using hgo

theorem run_array {array : Text} (h : array = [] ∨ array = "[]".toList)
    (hgo : goOn ⟨between (behind before array) (' ' :: rest), groups⟩ = some last) :
    (maybe (literal "[]")).run ⟨between before (array ++ ' ' :: rest), groups⟩ goOn =
      some last := by
  rw [run_maybe]
  rcases h with rfl | rfl
  · rw [literal, run_exactly_of_not_isPrefix (by simp), Option.none_or]
    exact hgo
  · rw [literal, run_exactly_append, hgo, Option.some_or]

def argumentsPattern : Pattern κ := star blank ++ char '<' ++ star (one isTypeArgumentChar) ++
    char '>'

theorem run_arguments_none (h : (rest.dropWhile Text.isBlank).head? ≠ some '<') :
    argumentsPattern.run ⟨between before rest, groups⟩ goOn = none := by
  refine run_starOne_none rest fun passed behind heq hpassed => run_one_of_head? fun c hc => ?_
  refine beq_false_of_ne ?_
  rintro rfl
  obtain ⟨more, rfl⟩ := List.head?_eq_some_iff.mp hc
  refine h ?_
  rw [heq, List.dropWhile_append_of_pos hpassed, List.dropWhile_cons_of_neg (by decide)]
  rfl

theorem run_arguments {inside : Text} (hinside : ∀ c ∈ inside, isTypeArgumentChar c)
    (hlast : '>' ∉ rest.takeWhile isTypeArgumentChar)
    (hgo : goOn ⟨between (some '>') rest, groups⟩ = some last) :
    argumentsPattern.run ⟨between before ('<' :: inside ++ '>' :: rest), groups⟩ goOn =
      some last := by
  have hmark : (star (one isTypeArgumentChar)).run ⟨between (some '<') (inside ++ '>' :: rest),
    groups⟩
      (fun there => (char '>').run there goOn) = some last :=
    run_star_mark hinside (by decide) hlast hgo
  rw [argumentsPattern, run_append, run_append, run_append, blank, run_star_stop]
  · simpa [char] using hmark
  · exact run_one_of_head? (by rintro c ⟨⟩; decide)

theorem isTypeArgumentChar_of_isArgumentChar {c : Char} (h : isArgumentChar c) :
    isTypeArgumentChar c := by
  have hline : isTailChar c := by simp [isTailChar, h]
  have hall := class_of_isTailChar (fun c => !isArgumentChar c || isTypeArgumentChar c) true
    (by decide) hline
  simpa [h] using hall

theorem isTypeChar_of_isDottedChar {c : Char} (h : isDottedChar c) : isTypeChar c := by
  have hline : isTailChar c := by simp [isTailChar, isArgumentChar, h]
  have hall := class_of_isTailChar (fun c => !isDottedChar c || isTypeChar c) true (by decide) hline
  simpa [h] using hall

theorem run_typeName {type : Text} (h : HasTypeShape type)
    (hlast : '>' ∉ (' ' :: rest).takeWhile isTypeArgumentChar)
    (hangle : (rest.dropWhile Text.isBlank).head? ≠ some '<')
    (hgo : goOn ⟨between (behind before type) (' ' :: rest), groups⟩ = some last) :
    typeName.run ⟨between before (type ++ ' ' :: rest), groups⟩ goOn = some last := by
  obtain ⟨hne, hname, harguments, harray⟩ := h
  rename_i name arguments array
  rw [List.append_assoc, List.append_assoc]
  change (plus (one isTypeChar) ++ maybe argumentsPattern ++ maybe (literal "[]")).run _ goOn = _
  rw [run_append, run_append]
  have hend : ∀ c ∈ (arguments ++ (array ++ ' ' :: rest)).head?, isTypeChar c = false := by
    rcases harguments with rfl | ⟨inside, rfl, -⟩
    · rcases harray with rfl | rfl
      · rintro c ⟨⟩; decide
      · rintro c ⟨⟩; decide
    · rintro c ⟨⟩; decide
  refine run_plusOne_of_some hne (fun c hc => isTypeChar_of_isDottedChar (hname c hc)) hend ?_
  rw [run_maybe]
  rcases harguments with rfl | ⟨inside, rfl, hinside⟩
  · rw [run_arguments_none, Option.none_or]
    · refine run_array harray ?_
      simpa [behind_append] using hgo
    · rcases harray with rfl | rfl
      · rwa [List.nil_append, List.nil_append, List.dropWhile_cons_of_pos (by decide)]
      · change (('[' :: ']' :: ' ' :: rest).dropWhile Text.isBlank).head? ≠ some '<'
        rw [List.dropWhile_cons_of_neg (by decide)]
        simp
  · rw [List.append_assoc, List.singleton_append, run_arguments, Option.some_or]
    · exact fun c hc => isTypeArgumentChar_of_isArgumentChar (hinside c hc)
    · rcases harray with rfl | rfl
      · exact hlast
      · change '>' ∉ ('[' :: ']' :: ' ' :: rest).takeWhile isTypeArgumentChar
        rw [List.takeWhile_cons_of_neg (by decide)]
        exact List.not_mem_nil
    · refine run_array harray ?_
      simpa [behind_append] using hgo

theorem head?_type {type : Text} (h : HasTypeShape type) :
    ∀ c ∈ (type ++ rest).head?, Text.isBlank c = false := by
  obtain ⟨hne, hname, -, -⟩ := h
  rename_i name arguments array
  obtain ⟨d, more, rfl⟩ := List.exists_cons_of_ne_nil hne
  intro c hc
  obtain rfl := Option.some.inj hc
  have hline : isTailChar d := by simp [isTailChar, isArgumentChar, hname d List.mem_cons_self]
  have hall := class_of_isTailChar (fun c => !isDottedChar c || !Text.isBlank c) true (by decide)
    hline
  simpa [hname d List.mem_cons_self] using hall

/-- The mark behind the name of a property or of a method. -/
def IsMemberMark (mark : Char) : Prop := mark = '\x7b' ∨ mark = '('

theorem mem_of_mem_takeWhile {accepts : Char → Bool} {passed : Text} {mark c : Char}
    (hmark : accepts mark = false)
    (hc : c ∈ (passed ++ mark :: rest).takeWhile accepts) : c ∈ passed := by
  rw [List.takeWhile_append] at hc
  split_ifs at hc
  · rw [List.takeWhile_cons_of_neg (by simp [hmark]), List.append_nil] at hc
    exact hc
  · exact (List.takeWhile_prefix accepts).subset hc

section Signature
variable {name gap : Text} {mark : Char} (hname : IsIdentifier name) (hgap : gap = [] ∨ gap = [' '])
  (hmark : IsMemberMark mark)
include hname

theorem head?_name : ∀ c ∈ (name ++ rest).head?, Text.isBlank c = false ∧ c ≠ '<' := by
  obtain ⟨d, more, rfl⟩ := List.exists_cons_of_ne_nil hname.nonempty
  intro c hc
  obtain rfl := Option.some.inj hc
  have hd := hname.ascii d List.mem_cons_self
  refine ⟨Markup.isBlank_of_isNamePart hd, ?_⟩
  rintro rfl
  exact absurd hd (by decide)

include hgap hmark

theorem not_mem_takeWhile_name :
    '>' ∉ (' ' :: (name ++ (gap ++ mark :: rest))).takeWhile isTypeArgumentChar := by
  have hstop : isTypeArgumentChar mark = false := by
    rcases hmark with rfl | rfl
    · decide
    · decide
  have hsource : ' ' :: (name ++ (gap ++ mark :: rest)) = (' ' :: (name ++ gap)) ++
    mark :: rest := by simp
  intro hmem
  rw [hsource] at hmem
  rcases List.mem_cons.mp (mem_of_mem_takeWhile hstop hmem) with heq | hmem
  · exact absurd heq (by decide)
  · rcases List.mem_append.mp hmem with hmem | hmem
    · exact absurd (hname.ascii '>' hmem) (by decide)
    · rcases hgap with rfl | rfl
      · cases hmem
      · exact absurd hmem (by decide)

end Signature

theorem run_signatureRest {signature : Signature} (h : signature.IsPlain) {gap : Text}
    (hgap : gap = [] ∨ gap = [' ']) {mark : Char} (hmark : IsMemberMark mark) (before : Option Char)
    (rest : Text) :
    ∃ after found, textsOf found =
        [(.name, signature.name), (.type, signature.type),
          (.modifiers, modifiersSource signature.modifiers)] ∧
      ∀ {goOn last groups}, goOn ⟨between after (mark :: rest), found ++ groups⟩ = some last →
        signatureRest.run ⟨between before (signature.tail ++ (gap ++ mark :: rest)), groups⟩ goOn =
          some last := by
  obtain ⟨visibility, modifiers, type, name⟩ := signature
  have hidentifier : IsIdentifier name := h.name
  have hshape : HasTypeShape type := h.type.shape
  let behindName := gap ++ mark :: rest
  let behindType := ' ' :: (name ++ behindName)
  let behindModifiers := type ++ behindType
  have htype : ∀ c ∈ behindModifiers.head?, Text.isBlank c = false := head?_type hshape
  have hblank : Text.isBlank mark = false ∧ Text.isWord mark = false := by
    rcases hmark with rfl | rfl
    · decide
    · decide
  have hgapBlank : ∀ c ∈ gap, Text.isBlank c := by
    rcases hgap with rfl | rfl
    · exact List.forall_mem_nil _
    · decide
  have hbehind : ∀ c ∈ behindName.head?, Text.isWord c = false := by
    rcases hgap with rfl | rfl
    · rintro c ⟨⟩; exact hblank.2
    · rintro c ⟨⟩; decide
  let afterModifiers := behind (some ' ') (modifiersSource modifiers)
  let afterName := behind (some ' ') name
  refine ⟨behind afterName gap,
    [(.name, (between (some ' ') (name ++ behindName)).spanTo (between afterName behindName)),
    (.type, (between afterModifiers behindModifiers).spanTo
    (between (behind afterModifiers type) behindType)),
      (.modifiers, (between (some ' ') (modifiersSource modifiers ++ behindModifiers)).spanTo
      (between afterModifiers behindModifiers))], ?_, fun {goOn last groups} hgo => ?_⟩
  · simp [textsOf, behindModifiers, spanTo_text]
  · have hsource : Signature.tail ⟨visibility, modifiers, type, name⟩ ++ behindName =
        ' ' :: (modifiersSource modifiers ++ behindModifiers) := by
      simp [Signature.tail, behindModifiers, behindType]
    rw [hsource]
    simp only [signatureRest, run_append, run_group]
    refine run_plusOne_of_some (List.cons_ne_nil ' ' []) (by decide)
      (head?_modifiers h.modifiers htype) ?_
    refine run_modifiers h.modifiers htype (fun _ => run_modifier_none h.type) ?_
    refine run_typeName hshape (not_mem_takeWhile_name hidentifier hgap hmark) ?_ ?_
    · have hdrop : (name ++ behindName).dropWhile Text.isBlank = name ++ behindName :=
        Text.trimStart_of_head? fun c hc => (head?_name hidentifier c hc).1
      rw [hdrop]
      exact fun hc => (head?_name hidentifier _ hc).2 rfl
    · refine run_plusOne_of_some (List.cons_ne_nil ' ' []) (by decide)
        (fun c hc => (head?_name hidentifier c hc).1) ?_
      refine run_plusOne_of_some hidentifier.nonempty
        (fun c hc => Markup.isWord_of_isNamePart (hidentifier.ascii c hc)) hbehind ?_
      refine run_starOne_of_some hgapBlank ?_ hgo
      rintro c ⟨⟩
      exact hblank.1

end Visualforce.Apex
