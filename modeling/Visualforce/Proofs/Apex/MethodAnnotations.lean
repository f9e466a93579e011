import Visualforce.Proofs.Apex.Annotations
import Visualforce.Proofs.Apex.InnerClasses
import Visualforce.Proofs.Pattern.Related

/-! # The annotations of methods

What a match of a method is made of: documentation or none, annotations, a visibility, the signature
and the parameters. Nothing of the annotations is left out at the front: a scan that comes to the
method would have matched from the first of them on.
-/
namespace Visualforce.Apex
open Pattern Cursor

variable {before : Option Char} {rest : Text} {groups : List (MemberPart × Span)}

/-- A method in a text: what stands in front of its annotations, the annotations, the visibility,
what stands between it and the parameters, the parameters, and what stands behind them. -/
structure Written where
  front : Text
  annotations : List AnnotationText
  visibility : Text
  signature : Text
  parameters : Text
  rest : Text
deriving Inhabited

namespace Written

def tail (w : Written) : Text :=
  w.annotations.flatMap AnnotationText.source ++
    (w.visibility ++ (w.signature ++ '(' :: (w.parameters ++ ')' :: w.rest)))

def text (w : Written) : Text := w.front ++ w.tail

/-- What is written is the method, with a brace behind it. -/
structure Writes (w : Written) (m : Method) : Prop where
  visibility : ∃ name ∈ visibilityNames, SameUpToCase name.toList w.visibility
  visibility_eq : m.visibility = Text.lowerKeyword w.visibility
  signature : ∃ types space, w.signature = types ++ (m.name ++ space) ∧
    types.getLast?.any Text.isBlank ∧
    ∀ c ∈ space, Text.isBlank c
  name : m.name ≠ [] ∧ ∀ c ∈ m.name, Text.isWord c
  parameters : ')' ∉ w.parameters ∧ m.parameters = Text.collapse w.parameters
  opens : ∃ space body, w.rest = space ++ '\x7b' :: body ∧ ∀ c ∈ space, Text.isBlank c

/-- No annotation directly in front of the visibility is left out. -/
def HasAll (w : Written) : Prop := ∀ a : AnnotationText, ¬ a.source <:+ w.front

/-- The method is what is written in the text, with all its annotations. Each annotation puts its
name on the list, and behind it the pieces that the blanks in its arguments tear off them. So the
list is the one of the names just if there are no such blanks. -/
structure StandsIn (text : Text) (w : Written) (m : Method) : Prop where
  text_eq : w.text = text
  writes : w.Writes m
  hasAll : w.HasAll
  listed : m.annotations = w.annotations.flatMap AnnotationText.listed
  listed_iff : m.annotations = w.annotations.map AnnotationText.mark ↔
    ∀ a ∈ w.annotations, ∀ c ∈ a.argumentsSource, Text.isBlank c = false

end Written

theorem leads_group_texts {key : MemberPart} {body : Pattern MemberPart}
    {here there : Place MemberPart}
    (h : Leads (group key body) here there) (hbody : Groupless body) : ∃ passed,
      here.cursor.rest = passed ++ there.cursor.rest ∧ textsOf there.groups =
      (key, passed) :: textsOf here.groups ∧
      ∃ middle, Leads body here middle ∧ middle.cursor = there.cursor := by
  obtain ⟨middle, hmiddle, rfl⟩ := leads_group.mp h
  obtain ⟨passed, hrest, -⟩ := hmiddle.reaches
  refine ⟨passed, hrest, ?_, middle, hmiddle, rfl⟩
  rw [textsOf, List.map_cons, hmiddle.groups_eq hbody, spanTo_text_of_rest hrest]
  rfl

/-- What stands in front of the annotations of a match: a comment or nothing, and blanks. -/
theorem leads_frontPattern {here middle : Place MemberPart} (h : Leads frontPattern here middle) :
    ∃ doc space, here.cursor.rest = doc ++ (space ++ middle.cursor.rest) ∧
      (∀ c ∈ space, Text.isBlank c) ∧
      (∀ c ∈ middle.cursor.rest.head?, Text.isBlank c = false) ∧
        (doc = [] ∨ ∃ inside, doc = inside ++ "*/".toList) := by
  obtain ⟨_, h, hsweep⟩ := leads_append.mp h
  obtain ⟨_, hguard, hdoc⟩ := leads_append.mp h
  obtain ⟨space, hspace, hblank, hhead⟩ := hsweep.sweep_inv
  cases hguard
  rcases leads_maybe.mp hdoc with hdoc | rfl
  · obtain ⟨_, hbody, rfl⟩ := leads_group.mp hdoc
    obtain ⟨_, hinside, hclose⟩ := leads_append.mp hbody
    obtain ⟨inside, hinside, -⟩ := hinside.reaches
    obtain ⟨hclose, -⟩ := hclose.exactly_inv
    refine ⟨inside ++ "*/".toList, space, ?_, hblank, hhead, .inr ⟨inside, rfl⟩⟩
    rw [hinside, hclose, hspace, List.append_assoc]
  · exact ⟨[], space, hspace, hblank, hhead, .inl rfl⟩

theorem exists_front {here : Cursor} {hit : Hit MemberPart}
    (h : methodPattern.matchAt here = some hit) :
    ∃ middle : Place MemberPart, Leads frontPattern ⟨here, []⟩ middle ∧
      (openingPattern.run middle fun behind => signatureRest.run behind fun there =>
        methodFinish.run there some) =
        some ⟨hit.stop, hit.groups⟩ := by
  rw [matchAt, Option.map_eq_some_iff] at h
  obtain ⟨last, hrun, rfl⟩ := h
  rw [isMemberPattern_method.run_eq, memberStart_run] at hrun
  exact exists_leads hrun

theorem leads_openingPattern {here there : Place MemberPart} (h : Leads openingPattern here there) :
    ∃ (annotations : List AnnotationText) (visibility : Text),
      here.cursor.rest = annotations.flatMap AnnotationText.source ++
      (visibility ++ there.cursor.rest) ∧
      (∃ name ∈ visibilityNames, SameUpToCase name.toList visibility) ∧
      textsOf there.groups =
        (.visibility, visibility) :: (.annotations, annotations.flatMap AnnotationText.source) ::
          textsOf here.groups := by
  obtain ⟨_, hannotations, hvisibility⟩ := leads_append.mp h
  obtain ⟨listed, hlisted, hgroups, _, hleads, heq⟩ := leads_group_texts hannotations (by decide)
  obtain ⟨visibility, hrest, hgroups', _, hleads', heq'⟩ :=
    leads_group_texts hvisibility (by decide)
  obtain ⟨annotations, hunits⟩ := hleads.many_units AnnotationText.exists_of_leads
  obtain ⟨pattern, hpattern, hword⟩ := hleads'.firstOf_inv
  obtain ⟨name, hname, rfl⟩ := List.mem_map.mp hpattern
  obtain ⟨word, hword, hsame⟩ := hword.caseless_inv
  rw [heq, hlisted, List.append_cancel_right_eq] at hunits
  rw [heq', hrest, List.append_cancel_right_eq] at hword
  subst hunits hword
  exact ⟨annotations, visibility, by rw [hlisted, hrest], ⟨name, hname, hsame⟩, by
    rw [hgroups', hgroups]⟩

theorem leads_signatureRest {here there : Place MemberPart} (h : Leads signatureRest here there) :
    ∃ types name space, here.cursor.rest = types ++ (name ++ (space ++ there.cursor.rest)) ∧
      types.getLast?.any Text.isBlank ∧ (name ≠ [] ∧ ∀ c ∈ name, Text.isWord c) ∧
        (∀ c ∈ space, Text.isBlank c) ∧
      ∃ modifiers type, textsOf there.groups =
        (.name, name) :: (.type, type) :: (.modifiers, modifiers) :: textsOf here.groups := by
  obtain ⟨_, h, hspace⟩ := leads_append.mp h
  obtain ⟨_, h, hname⟩ := leads_append.mp h
  obtain ⟨_, h, hblanks⟩ := leads_append.mp h
  obtain ⟨_, h, htype⟩ := leads_append.mp h
  obtain ⟨_, hgap, hmodifiers⟩ := leads_append.mp h
  have hgap_groups := hgap.groups_eq (by decide)
  have hblanks_groups := hblanks.groups_eq (by decide)
  obtain ⟨gap, hgap, -⟩ := hgap.plusOne_inv
  obtain ⟨modifiers, hmodifiers, hmodifiers_groups, -⟩ := leads_group_texts hmodifiers (by decide)
  obtain ⟨type, htype, htype_groups, -⟩ := leads_group_texts htype (by decide)
  obtain ⟨blanks, hblanks, hne, hblank⟩ := hblanks.plusOne_inv
  obtain ⟨name, hname, hname_groups, _, hleads, heq⟩ := leads_group_texts hname (by decide)
  obtain ⟨word, hword, hword_ne, hisWord⟩ := hleads.plusOne_inv
  obtain ⟨space, hspace, hspace_blank, hspace_groups⟩ := hspace.manyOne_inv
  rw [heq, hname, List.append_cancel_right_eq] at hword
  subst hword
  refine ⟨gap ++ (modifiers ++ (type ++ blanks)), name, space, ?_, ?_, ⟨hword_ne, hisWord⟩,
    hspace_blank, modifiers, type, ?_⟩
  · simp only [hgap, hmodifiers, htype, hblanks, hname, hspace, List.append_assoc]
  · rw [← List.append_assoc modifiers, ← List.append_assoc gap,
      List.getLast?_append_of_ne_nil _ hne, List.getLast?_eq_some_getLast hne, Option.any_some]
    exact hblank _ (List.getLast_mem hne)
  · rw [hspace_groups, hname_groups, hblanks_groups, htype_groups, hmodifiers_groups, hgap_groups]

theorem leads_methodFinish {here there : Place MemberPart} (h : Leads methodFinish here there) :
    ∃ parameters space, here.cursor.rest =
      '(' :: (parameters ++ ')' :: (space ++ '\x7b' :: there.cursor.rest)) ∧ ')' ∉ parameters ∧
      (∀ c ∈ space, Text.isBlank c) ∧ textsOf there.groups =
        (.parameters, parameters) :: textsOf here.groups := by
  obtain ⟨_, h, hbrace⟩ := leads_append.mp h
  obtain ⟨_, h, hspace⟩ := leads_append.mp h
  obtain ⟨_, h, hclose⟩ := leads_append.mp h
  obtain ⟨_, hopen, hparameters⟩ := leads_append.mp h
  obtain ⟨hopen, hopen_groups⟩ := hopen.char_inv
  obtain ⟨parameters, hrest, hgroups, _, hleads, heq⟩ := leads_group_texts hparameters (by decide)
  obtain ⟨passed, hpassed, hclosed, -⟩ := hleads.manyOne_inv
  obtain ⟨hclose, hclose_groups⟩ := hclose.char_inv
  obtain ⟨space, hspace, hblank, hspace_groups⟩ := hspace.manyOne_inv
  obtain ⟨hbrace, hbrace_groups⟩ := hbrace.char_inv
  rw [heq, hrest, List.append_cancel_right_eq] at hpassed
  subst hpassed
  refine ⟨parameters, space, ?_, fun hmem => not_contains_iff.mp (hclosed ')' hmem) rfl, hblank, ?_⟩
  · rw [hopen, hrest, hclose, hspace, hbrace]
  · rw [hbrace_groups, hspace_groups, hclose_groups, hgroups, hopen_groups]

theorem exists_tail {middle : Place MemberPart} {hit : Hit MemberPart} (front : Text)
    (h : (openingPattern.run middle fun behind => signatureRest.run behind fun there =>
    methodFinish.run there some) =
      some ⟨hit.stop, hit.groups⟩) : ∃ w : Written, w.front = front ∧ middle.cursor.rest = w.tail ∧
        w.Writes (methodOf hit) ∧
      (methodOf hit).annotations = w.annotations.flatMap AnnotationText.listed ∧
      ∃ space, w.rest = space ++ '\x7b' :: hit.stop.rest ∧ ∀ c ∈ space, Text.isBlank c := by
  obtain ⟨behind, hopening, h⟩ := exists_leads h
  obtain ⟨there, hsignature, h⟩ := exists_leads h
  obtain ⟨_, hfinish, h⟩ := exists_leads h
  cases h
  obtain ⟨annotations, visibility, hrest, hvisibility, hgroups⟩ := leads_openingPattern hopening
  obtain ⟨types, name, space, hrest', htypes, hname, hspace, modifiers, type, hgroups'⟩ :=
    leads_signatureRest hsignature
  obtain ⟨parameters, space', hrest'', hparameters, hspace', hgroups''⟩ :=
    leads_methodFinish hfinish
  have htexts := hgroups''
  rw [hgroups', hgroups] at htexts
  have hmethod : (methodOf hit).name = name ∧ (methodOf hit).visibility =
    Text.lowerKeyword visibility ∧
      (methodOf hit).parameters = Text.collapse parameters ∧ (methodOf hit).annotations =
        (Text.words (annotations.flatMap AnnotationText.source)).map (·.takeWhile (· != '(')) := by
    simp only [methodOf, group_eq, htexts]
    exact ⟨rfl, rfl, rfl, rfl⟩
  obtain ⟨hname_eq, hvisibility_eq, hparameters_eq, hannotations⟩ := hmethod
  refine ⟨⟨front, annotations, visibility, types ++ (name ++ space), parameters, space' ++
    '\x7b' :: hit.stop.rest⟩, rfl, ?_, ⟨hvisibility, hvisibility_eq, ?_, ?_,
      ⟨hparameters, hparameters_eq⟩, ⟨space', _, rfl, hspace'⟩⟩, ?_,
    space', rfl, hspace'⟩
  · simp only [Written.tail, hrest, hrest', hrest'', List.append_assoc]
  · rw [hname_eq]
    exact ⟨types, space, rfl, htypes, hspace⟩
  · rw [hname_eq]
    exact hname
  · rw [hannotations, AnnotationText.words_flatMap_source]

/-- The blanks that a text ends with belong to the blanks behind a character that is none. -/
theorem exists_of_append_blanks {solid blanks front space : Text} {c : Char}
    (hc : Text.isBlank c = false)
    (hspace : ∀ d ∈ space, Text.isBlank d) (h : (solid ++ [c]) ++ blanks = front ++ space) :
    ∃ left, front = (solid ++ [c]) ++ left ∧ blanks = left ++ space := by
  obtain ⟨left, hfront, hblanks⟩ | ⟨left, hsolid, hleft⟩ := List.append_eq_append_iff.mp h
  · exact ⟨left, hfront, hblanks⟩
  · rcases List.eq_nil_or_concat left with rfl | ⟨more, d, rfl⟩
    · exact ⟨[], by rw [hsolid, List.append_nil, List.append_nil], hleft.symm⟩
    · have hlast := congrArg List.getLast? hsolid
      rw [List.getLast?_concat, List.concat_eq_append, ← List.append_assoc, List.getLast?_concat]
        at hlast
      obtain rfl := Option.some.inj hlast
      have hblank := hspace c (by simp [hleft])
      rw [hc] at hblank
      cases hblank

/-- Whether annotations and a visibility are matched does not change when one more annotation stands
in front of them. -/
theorem isSome_run_opening {goOn : Place MemberPart → Option (Place MemberPart)}
    {groups' : List (MemberPart × Span)}
    (hgo : ∀ {place place'}, SameCursor place place' → (goOn place).isSome = (goOn place').isSome)
    (a : AnnotationText)
    (hhead : ∀ c ∈ rest.head?, Text.isBlank c = false)
    (h : (openingPattern.run ⟨between (behind before a.source) rest, groups⟩ goOn).isSome) :
    (openingPattern.run ⟨between before (a.source ++ rest), groups'⟩ goOn).isSome := by
  rw [openingPattern, run_append, run_group] at h ⊢
  rw [run_star_step (a.run_source hhead) (a.left_lt _ _ _), Option.isSome_or, Bool.or_eq_true]
  -- Behind the annotation only the captured texts differ.
  left
  rw [← h]
  refine isSome_run_of_sameCursor rfl fun hplace => isSome_run_of_sameCursor hplace fun hplace =>
    hgo hplace

theorem matchAt_annotation {hit : Hit MemberPart} {middle : Place MemberPart} (a : AnnotationText)
    (hbefore : middle.cursor.before = behind before a.source)
    (hhead : ∀ c ∈ middle.cursor.rest.head?, Text.isBlank c = false)
    (h : (openingPattern.run middle fun behind => signatureRest.run behind fun there =>
    methodFinish.run there some) =
      some ⟨hit.stop, hit.groups⟩) :
    methodPattern.matchAt (between before (a.source ++ middle.cursor.rest)) ≠ none := by
  have hat : ∀ c ∈ (a.source ++ middle.cursor.rest).head?, Text.isBlank c = false ∧ c ≠ '/' := by
    rintro c ⟨⟩
    decide
  have hmatch : methodPattern.matchAt (between before ([] ++ (a.source ++ middle.cursor.rest))) =
    _ :=
    matchAt_front isMemberPattern_method (List.forall_mem_nil _) (fun c hc => (hat c hc).1)
      (not_doc_of_head? fun c hc => (hat c hc).2)
  have hnone : (before.any Text.isBlank && (a.source ++ middle.cursor.rest).head?.any
    Text.isBlank) = false :=
    Bool.and_eq_false_iff.mpr (.inr rfl)
  rw [List.nil_append, behind_nil, hnone, if_neg Bool.false_ne_true] at hmatch
  rw [hmatch, ← Option.isSome_iff_ne_none, Option.isSome_map]
  have hopening :
    (openingPattern.run ⟨between (behind before a.source) middle.cursor.rest, middle.groups⟩
    fun behind =>
      signatureRest.run behind fun there => methodFinish.run there some).isSome := by
    rw [← hbefore, ← eq_between, h]
    rfl
  refine isSome_run_opening (fun hplace => ?_) a hhead hopening
  exact isSome_run_of_sameCursor hplace fun hplace => isSome_run_of_sameCursor hplace fun _ => rfl

/-- The end of a method is not inside of an annotation: its arguments would be closed before the
brace. -/
theorem AnnotationText.not_opened (a : AnnotationText)
    {front more space earlier ahead blanks : Text}
    (hspace : ∀ c ∈ space, Text.isBlank c) (hblanks : ∀ c ∈ blanks, Text.isBlank c)
    (hearlier : earlier ++ ')' :: (space ++ ['\x7b']) = front ++ more) (hne : more ≠ [])
    (h : a.mark ++ (a.argumentsSource ++ blanks) = more ++ ahead) : False := by
  have hnot {c : Char} (hc : Text.isBlank c = false) {text : Text}
    (htext : ∀ c ∈ text, Text.isBlank c) : c ∉ text := by
    intro hmem
    rw [htext c hmem] at hc
    cases hc
  obtain ⟨passed, last, rfl⟩ := (List.eq_nil_or_concat more).resolve_left hne
  rw [List.concat_eq_append] at h hearlier
  rw [← List.cons_append, ← List.append_assoc, ← List.append_assoc front] at hearlier
  obtain ⟨hpassed, hlast⟩ := List.append_inj' hearlier rfl
  obtain rfl := List.singleton_inj.mp hlast
  rw [List.append_assoc, List.singleton_append] at h
  obtain ⟨left, rfl, harguments⟩ :=
    Text.exists_of_append_eq_cons (a.not_mem_mark (by decide) (by decide)) h
  have hclosed : ')' ∉ a.mark ++ left := by
    refine fun hmem => (List.mem_append.mp hmem).elim (a.not_mem_mark (by decide) (by decide))
      fun hmem => ?_
    obtain ⟨first, second, rfl⟩ := List.append_of_mem hmem
    rcases a.argumentsSource_cases with hnone | ⟨inside, hinside, hopen⟩
    · rw [hnone, List.nil_append] at harguments
      exact hnot (by decide) hblanks (harguments ▸ by simp : '\x7b' ∈ blanks)
    · have hparenthesis : ')' ∉ '(' :: inside :=
        List.not_mem_cons_of_ne_of_not_mem (by decide) hopen
      rw [hinside, ← List.cons_append, List.append_assoc, List.append_assoc, List.singleton_append,
        List.cons_append] at harguments
      obtain ⟨behind, -, hbehind⟩ := Text.exists_of_append_eq_cons hparenthesis harguments
      cases behind with
      | nil =>
        exact hnot (by decide) hblanks ((List.cons.inj hbehind).2 ▸ by
          simp : '\x7b' ∈ blanks)
      | cons d behind =>
        exact hnot (by decide) hblanks ((List.cons.inj hbehind).2 ▸ by
          simp : ')' ∈ blanks)
  obtain ⟨behind, -, hbehind⟩ | ⟨behind, -, hbehind⟩ := List.append_eq_append_iff.mp hpassed
  · cases behind with
    | nil => exact hclosed (hbehind ▸ List.mem_cons_self)
    | cons d behind =>
      have hat : '@' ∈ space := by
        rw [(List.cons.inj hbehind).2]
        exact List.mem_append_right behind (List.mem_append_left left List.mem_cons_self)
      exact hnot (by decide) hspace hat
  · exact hclosed (hbehind ▸ List.mem_append_right behind List.mem_cons_self)

theorem exists_matched {here : Cursor} {hit : Hit MemberPart}
    (h : methodPattern.matchAt here = some hit) :
    ∃ passed space, here.rest = (passed ++ ')' :: (space ++ ['\x7b'])) ++ hit.stop.rest ∧
      ∀ c ∈ space, Text.isBlank c := by
  obtain ⟨middle, hfront, hrun⟩ := exists_front h
  obtain ⟨passed, hrest, -⟩ := hfront.reaches
  obtain ⟨w, -, htail, -, -, space, hspace, hblank⟩ := exists_tail [] hrun
  refine ⟨passed ++
    (w.annotations.flatMap AnnotationText.source ++
    (w.visibility ++ (w.signature ++ '(' :: w.parameters))), space, ?_, hblank⟩
  rw [hrest, htail, Written.tail, hspace]
  simp only [List.append_assoc, List.cons_append, List.nil_append]

/-- What a scan has passed before its last stop ends with a match of a method. -/
theorem exists_of_comes {text earlier quiet : Text} {here : Cursor}
    (htext : text = earlier ++ (quiet ++ here.rest))
    (h : earlier = [] ∨ ∃ hit, Reaches (start text) hit.start ∧ methodPattern.matchAt hit.start =
    some hit ∧
      hit.stop = between (behind none earlier) (quiet ++ here.rest)) :
    earlier = [] ∨ ∃ passed space, earlier = passed ++ ')' :: (space ++ ['\x7b']) ∧
      ∀ c ∈ space, Text.isBlank c := by
  refine h.imp_right ?_
  rintro ⟨hit, ⟨front, hfront, -⟩, hmatch, hstop⟩
  obtain ⟨passed, space, hpassed, hblank⟩ := exists_matched hmatch
  change text = front ++ hit.start.rest at hfront
  refine ⟨front ++ passed, space, ?_, hblank⟩
  rw [hpassed, hstop, between_rest, htext, ← List.append_assoc front, List.append_cancel_right_eq]
    at hfront
  rw [hfront, List.append_assoc]

/-- The annotation behind which a scan comes to a method is not left out of it. -/
theorem hasAll_of_comes {front earlier quiet doc space : Text} {hit : Hit MemberPart}
    {middle : Place MemberPart}
    (a : AnnotationText) (hrest : hit.start.rest = doc ++ (space ++ middle.cursor.rest))
    (hmiddle : middle.cursor.before = behind (behind none (earlier ++ quiet)) (doc ++ space))
    (hblank : ∀ c ∈ space, Text.isBlank c)
    (hhead : ∀ c ∈ middle.cursor.rest.head?, Text.isBlank c = false)
    (hdoc : doc = [] ∨ ∃ inside, doc = inside ++ "*/".toList)
    (hquiet : Quiet methodPattern (behind none earlier) quiet hit.start.rest)
    (hearlier : earlier = [] ∨ ∃ passed space, earlier = passed ++ ')' :: (space ++ ['\x7b']) ∧
    ∀ c ∈ space, Text.isBlank c)
    (hrun : (openingPattern.run middle fun behind => signatureRest.run behind fun there =>
    methodFinish.run there some) =
      some ⟨hit.stop, hit.groups⟩) : front ++ a.source ≠ earlier ++ (quiet ++ (doc ++ space)) := by
  intro hfront
  obtain ⟨body, last, hbody, hlast, hslash⟩ := a.exists_last
  obtain ⟨left, hleft, haspace⟩ : ∃ left, earlier ++ (quiet ++ doc) = (front ++ body ++ [last]) ++
    left ∧ a.space = left ++ space := by
    refine exists_of_append_blanks hlast hblank ?_
    rw [AnnotationText.source, ← List.append_assoc a.mark, hbody] at hfront
    simpa only [List.append_assoc] using hfront
  rcases hdoc with rfl | ⟨inside, rfl⟩
  · rw [List.append_nil, List.append_assoc front, ← hbody, List.append_assoc] at hleft
    -- The annotation does not begin before the end of an earlier match.
    obtain ⟨passed, rfl⟩ : ∃ passed, quiet = passed ++ (a.mark ++ a.argumentsSource ++ left) := by
      obtain ⟨passed, -, hpassed⟩ | ⟨passed, hpassed, hahead⟩ := List.append_eq_append_iff.mp hleft
      · exact ⟨passed, hpassed⟩
      · rcases eq_or_ne passed [] with rfl | hne
        · exact ⟨[], hahead.symm⟩
        · rcases hearlier with rfl | ⟨before, gap, hearlier, hgap⟩
          · exact absurd (List.append_eq_nil_iff.mp hpassed.symm).2 hne
          · have hleft_blank : ∀ c ∈ left, Text.isBlank c := fun c hc =>
              a.isSpace.2 c (haspace ▸ List.mem_append_left space hc)
            rw [List.append_assoc] at hahead
            exact (a.not_opened hgap hleft_blank (hearlier.symm.trans hpassed) hne hahead).elim
    have hnone := hquiet.matchAt_none (List.cons_ne_nil _ _)
    have hbefore : middle.cursor.before = behind (behind (behind none earlier) passed)
      a.source := by
      rw [hmiddle, AnnotationText.source, haspace]
      simp only [behind_append, List.nil_append]
    rw [hrest, List.nil_append, List.append_assoc, ← List.append_assoc left, ← haspace,
      ← List.append_assoc, List.append_assoc a.mark, ← AnnotationText.source] at hnone
    exact matchAt_annotation a hbefore hhead hrun hnone
  · -- no annotation ends as a comment does
    have hend := congrArg List.getLast? hleft
    rw [← List.append_assoc quiet, ← List.append_assoc earlier,
      List.getLast?_append_of_ne_nil _ (by decide)] at hend
    rcases List.eq_nil_or_concat left with rfl | ⟨more, d, rfl⟩
    · rw [List.append_nil, List.getLast?_concat] at hend
      exact hslash (Option.some.inj hend).symm
    · rw [List.concat_eq_append, ← List.append_assoc, List.getLast?_concat] at hend
      obtain rfl : '/' = d := Option.some.inj hend
      exact absurd (a.isSpace.2 '/' (by simp [haspace])) (by decide)

/-- A method that a scan comes to has all its annotations. -/
theorem exists_written {text : Text} {hit : Hit MemberPart}
    (hmatch : methodPattern.matchAt hit.start = some hit)
    (hcomes : Comes methodPattern text hit.start) : ∃ w : Written, w.StandsIn text (methodOf hit) ∧
      text.length - hit.start.left ≤ w.front.length ∧ w.front.length <
        text.length - hit.stop.left := by
  obtain ⟨middle, hfront, hrun⟩ := exists_front hmatch
  obtain ⟨doc, space, hrest, hblank, hhead, hdoc⟩ := leads_frontPattern hfront
  obtain ⟨earlier, quiet, htext, hbefore, hquiet, hearlier⟩ := hcomes
  obtain ⟨w, hw, htail, hwrites, hlisted, space', hopens, -⟩ :=
    exists_tail (earlier ++ (quiet ++ (doc ++ space))) hrun
  replace hrest : hit.start.rest = doc ++ (space ++ middle.cursor.rest) := hrest
  have hall : w.text = text := by
    rw [Written.text, hw, ← htail, htext, hrest]
    simp only [List.append_assoc]
  refine ⟨w, ⟨hall, hwrites, fun a ha => ?_, hlisted, ?_⟩, ?_, ?_⟩
  · obtain ⟨front, ha⟩ := ha
    obtain ⟨passed, hpassed, hmiddle⟩ := hfront.reaches
    replace hpassed : hit.start.rest = passed ++ middle.cursor.rest := hpassed
    rw [hrest, ← List.append_assoc, List.append_cancel_right_eq] at hpassed
    subst hpassed
    exact hasAll_of_comes a hrest (hbefore ▸ hmiddle) hblank hhead hdoc hquiet
      (exists_of_comes htext hearlier) hrun (ha.trans hw)
  · rw [hlisted]
    exact AnnotationText.flatMap_listed_eq_iff _
  · rw [htext, hit.start.left_eq, hw]
    simp only [List.length_append]
    omega
  · rw [← hall, hit.stop.left_eq, Written.text, Written.tail, hopens]
    simp only [List.length_append, List.length_cons]
    omega

theorem lt_of_matchAt {here : Cursor} {hit : Hit MemberPart}
    (h : methodPattern.matchAt here = some hit) :
    hit.stop.left < here.left := by
  obtain ⟨passed, space, hrest, -⟩ := exists_matched h
  rw [here.left_eq, hit.stop.left_eq, hrest]
  simp only [List.length_append, List.length_cons]
  omega

/-- The text that members are looked for in: the body of a class, its inner classes blanked out. -/
def membersOfBody (body : Text) : Text := blanked body (declarations body)

/-- At every depth the methods of a class are written one behind the other among its members, each
with the annotations that stand directly in front of its visibility. -/
theorem methods_annotations {source name body : Text} {found : Class}
    (h : Reads source name body found) :
    ∃ written : List Written, List.Forall₂ (Written.StandsIn (membersOfBody body))
      written found.methods ∧
      written.Pairwise fun first second => first.front.length < second.front.length := by
  obtain ⟨n, name', hn, rfl⟩ := h.exists_readBody
  obtain ⟨n, rfl⟩ : ∃ k, n = k + 1 := ⟨n - 1, by omega⟩
  obtain ⟨hmatches, hordered⟩ := hits_comes (fun _ _ => lt_of_matchAt) (membersOfBody body)
  have hwritten := fun hit hhit => exists_written (hmatches hit hhit).1 (hmatches hit hhit).2
  choose! write hstands hstart hstop using hwritten
  refine ⟨(methodPattern.hits (membersOfBody body)).map write, ?_, ?_⟩
  · change List.Forall₂ _ _ ((methodPattern.hits (membersOfBody body)).map methodOf)
    rw [List.forall₂_map_left_iff, List.forall₂_map_right_iff, List.forall₂_same]
    exact hstands
  · rw [List.pairwise_map]
    refine hordered.imp_of_mem fun {first second} hfirst hsecond hle => ?_
    have hlt := hstop first hfirst
    have hfront := hstart second hsecond
    omega

/-- One method with a blank in the arguments of an annotation, and one without. -/
def annotatedSource : Text :=
  "public class A \x7b\n".toList ++ "@A(x y) @B public void f() \x7b \x7d\n".toList ++
  "@C @D(z) public void g() \x7b \x7d\n\x7d".toList

theorem methods_annotations_annotated :
    Reads annotatedSource [] (outerBody annotatedSource) (read annotatedSource []) ∧
      (∃ written : List Written,
        List.Forall₂ (Written.StandsIn (membersOfBody (outerBody annotatedSource))) written
        (read annotatedSource []).methods ∧
        written.Pairwise fun first second => first.front.length < second.front.length) ∧
      (read annotatedSource []).methods.map (·.annotations) =
        [["@A".toList, "y)".toList, "@B".toList], ["@C".toList, "@D".toList]] :=
  ⟨.outer, methods_annotations .outer, by decide +kernel⟩

/-- A method with one annotation, in whose arguments there is a blank. -/
def tornSource : Text :=
  "public class A \x7b\n".toList ++ "@A(x y) public void f() \x7b \x7d\n\x7d".toList

def tornMethod : Written where
  front := ['\n']
  annotations := [⟨"A".toList, some "x y".toList, [' '], by decide, by decide, by decide⟩]
  visibility := "public".toList
  signature := " void f".toList
  parameters := []
  rest := " \x7b \x7d\n".toList

/-- The only annotation of the only method gives two entries. -/
theorem annotations_tornSource : tornMethod.text = membersOfBody (outerBody tornSource) ∧
    (read tornSource []).methods.map (·.name) = ["f".toList] ∧
    tornMethod.annotations.map AnnotationText.mark = ["@A".toList] ∧
    (read tornSource []).methods.map (·.annotations) = [["@A".toList, "y)".toList]] := by
  decide +kernel

end Visualforce.Apex
