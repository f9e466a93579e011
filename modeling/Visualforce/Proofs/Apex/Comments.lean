import Visualforce.Proofs.Apex.Commented
import Visualforce.Proofs.Apex.Members

/-! # Comments between members

No member begins in an ordinary comment. What ends a comment is no letter and no word character, so
a word that begins in a comment ends in it, and what may be the front of a declaration is seen in
the comment itself.
-/
namespace Visualforce.Apex
open Pattern Cursor

variable {comment front text word rest : Text} {before : Option Char} {c stop : Char}

/-- What comments, and blanks behind them, end with. -/
def IsStop (stop : Char) : Prop := stop = '/' ∨ Text.isBlank stop

theorem IsStop.isWord (h : IsStop stop) : Text.isWord stop = false := by
  rcases h with rfl | h
  · decide
  · exact Text.isWord_of_isBlank h

theorem IsStop.ne_at (h : IsStop stop) : stop ≠ '@' := by
  rintro rfl
  rcases h with h | h
  · cases h
  · cases h

/-- Words do not go on over the end. -/
theorem IsStop.not_mem {name : Text} (h : IsStop stop) (hname : IsLowerName name)
    (hsame : SameUpToCase name word) :
    stop ∉ word := by
  rcases h with rfl | h
  · exact not_mem_of_sameUpToCase hname hsame (by decide)
  · intro hmem
    obtain ⟨c, hc, hsame⟩ := hsame.exists_of_mem hmem
    rw [isBlank_of_sameUpToCase (hname c hc) hsame] at h
    cases h

/-- An ordinary comment, from its opening mark up to what ends it. -/
structure IsComment (comment : Text) : Prop where
  shape : ∃ inside stop, comment = '/' :: (inside ++ [stop]) ∧ IsStop stop
  ordinary : IsOrdinaryComment comment

/-- Whatever a text ends with ends with its last character. -/
theorem exists_stop {inside : Text} (hsplit : inside ++ [stop] = front ++ text) (hne : text ≠ []) :
    ∃ more, text = more ++ [stop] := by
  obtain ⟨more, last, rfl⟩ := (List.eq_nil_or_concat' text).resolve_left hne
  have hends := congrArg List.getLast? hsplit
  rw [← List.append_assoc, List.getLast?_concat, List.getLast?_concat] at hends
  obtain rfl := Option.some.inj hends
  exact ⟨more, rfl⟩

theorem IsComment.exists_stop (h : IsComment comment) (hsplit : comment = front ++ text)
    (hne : text ≠ []) :
    ∃ inside stop, text = inside ++ [stop] ∧ IsStop stop := by
  obtain ⟨body, stop, hshape, hstop⟩ := h.shape
  rw [hshape, ← List.cons_append] at hsplit
  obtain ⟨inside, rfl⟩ := Apex.exists_stop hsplit hne
  exact ⟨inside, stop, rfl, hstop⟩

theorem isComment_line (h : (Filler.line text).IsOrdinary) : IsComment (lineComment text) :=
  ⟨⟨'/' :: text, '\n', rfl, .inr (by decide)⟩, h.2⟩

theorem isComment_block (h : (Filler.block text).IsOrdinary) : IsComment (blockComment text) := by
  refine ⟨⟨'*' :: (text ++ ['*']), '/', ?_, .inl rfl⟩, h.2⟩
  simp [blockComment]

theorem isWord_head?_class (h : SameUpToCase "class".toList word) (rest : Text) :
    (word ++ rest).head?.any Text.isWord = true := by
  cases h with
  | @cons _ d _ _ hd _ =>
    have hascii : d.toNat < 128 := toNat_lt_of_sameUpToCase (by decide) (by decide) hd
    have hall : ∀ n : Fin 128, (Char.ofNat n).toLower = 'c' → Text.isWord (Char.ofNat n) := by
      decide +kernel
    have hword := hall ⟨d.toNat, hascii⟩
    simp only [Char.ofNat_toNat] at hword
    exact hword ((sameUpToCase_iff (by decide) hascii).mp hd)

/-- A lead that does not occur is not matched at any place. -/
theorem run_of_not_occursIn {lead : Pattern Unit} (h : lead.occursIn comment = false)
    (hsplit : comment = front ++ text) :
    lead.run ⟨between (behind none front) text, []⟩ some = none := by
  have hsearch : lead.searchFrom (between none (front ++ text)) = none := by
    rw [occursIn, Option.isSome_eq_false_iff, Option.isNone_iff_eq_none] at h
    rw [← hsplit]
    exact h
  exact Option.map_eq_none_iff.mp (matchAt_of_searchFrom hsearch)

theorem run_lead {leads : List (Pattern Unit)} (h : (firstOf leads).occursIn comment = false)
    (hsplit : comment = front ++ text)
    {pattern : Pattern Unit} (hpattern : pattern ∈ leads) :
    pattern.run ⟨between (behind none front) text, []⟩ some = none := by
  have hrun := run_of_not_occursIn h hsplit
  rw [run_firstOf] at hrun
  exact List.findSome?_eq_none_iff.mp hrun pattern hpattern

/-- The words of classes and members in front of a blank. -/
def wordLeads : List (Pattern Unit) := [wordEdge ++ anyCase "class" ++ blank, visibility ++ blank]

structure IsWordless (text : Text) : Prop where
  isWord_of_class : ∀ {front word rest : Text} {c : Char}, SameUpToCase "class".toList word →
    Text.isBlank c →
    text = front ++ (word ++ c :: rest) → (behind none front).any Text.isWord
  not_visibility : ∀ {front word rest : Text} {c : Char} {name : String}, name ∈ visibilityNames →
    SameUpToCase name.toList word → Text.isBlank c → text ≠ front ++ (word ++ c :: rest)

theorem isWordless_blanks (h : ∀ c ∈ text, Text.isBlank c) : IsWordless text where
  isWord_of_class := by
    intro front word rest c hsame _ hsplit
    obtain ⟨d, more, hmore⟩ : ∃ d more, word ++ c :: rest = d :: more :=
      List.exists_cons_of_ne_nil (by simp)
    have hword : Text.isWord d := by
      have hhead := isWord_head?_class hsame (c :: rest)
      rwa [hmore] at hhead
    rw [Text.isWord_of_isBlank (h d (by simp [hsplit, hmore]))] at hword
    cases hword
  not_visibility := by
    rintro front word rest c name hname hsame - rfl
    obtain ⟨d, hd⟩ : ∃ d, d ∈ word := by
      have hne : ∀ name ∈ visibilityNames, name.toList ≠ [] := by decide
      refine List.exists_mem_of_ne_nil word ?_
      rintro rfl
      exact hne name hname (List.forall₂_nil_right_iff.mp hsame)
    obtain ⟨e, he, hsame⟩ := hsame.exists_of_mem hd
    have hblank := isBlank_of_sameUpToCase (isLowerName_visibility name hname e he) hsame
    rw [h d (by simp [hd])] at hblank
    cases hblank

theorem isWordless_of_leads {leads : List (Pattern Unit)}
    (h : (firstOf leads).occursIn comment = false)
    (hleads : ∀ pattern ∈ wordLeads, pattern ∈ leads) : IsWordless comment where
  isWord_of_class := by
    intro front word rest c hsame hc hsplit
    -- the word of a class is the end of a longer word
    by_contra hedge
    have hrun := run_lead h hsplit (hleads _ (.head _))
    rw [run_append, run_append, run_wordEdge] at hrun
    rw [Bool.not_eq_true] at hedge
    simp only [hedge, isWord_head?_class hsame, if_true, bne_iff_ne, ne_eq, Bool.false_eq_true,
      not_false_eq_true] at hrun
    rw [anyCase, run_caseless_of_sameUpToCase hsame, blank, run_one_cons, if_pos hc] at hrun
    cases hrun
  not_visibility := by
    intro front word rest c name hname hsame hc hsplit
    have hrun := run_lead h hsplit (hleads _ (.tail _ (.head _)))
    rw [run_append, visibility, keyword, run_firstOf, List.findSome?_map] at hrun
    have hnone := List.findSome?_eq_none_iff.mp hrun name hname
    rw [Function.comp_apply, anyCase, run_caseless_of_sameUpToCase hsame, blank, run_one_cons,
      if_pos hc] at hnone
    cases hnone

namespace IsOrdinaryComment

theorem isWordless (h : IsOrdinaryComment comment) : IsWordless comment := by
  refine isWordless_of_leads h fun pattern hpattern => ?_
  rcases List.mem_cons.mp hpattern with rfl | hpattern
  · exact .head _
  · obtain rfl := List.mem_singleton.mp hpattern
    exact .tail _ (.head _)

theorem not_annotation (h : IsOrdinaryComment comment) (hne : word ≠ [])
    (hword : ∀ d ∈ word, Text.isWord d)
    (hc : Text.isBlank c ∨ c = '(') : comment ≠ front ++ '@' :: (word ++ c :: text) := by
  intro hsplit
  have hrun := run_lead h hsplit (.tail _ (.tail _ (.head _)))
  have hstop : ∀ d ∈ (c :: text).head?, Text.isWord d = false := by
    rintro d ⟨⟩
    rcases hc with hc | rfl
    · exact Text.isWord_of_isBlank hc
    · decide
  have hlast : (Text.isBlank c || c == '(') = true := by simpa using hc
  have hname : (plus wordChar ++ one fun c => Text.isBlank c || c == '(' : Pattern Unit).run
      ⟨between (some '@') (word ++ c :: text), []⟩ some = some ⟨between (some c) text, []⟩ := by
    refine run_plusOne_of_some hne hword hstop ?_
    rw [run_one_cons, if_pos hlast]
  exact absurd (hname.symm.trans hrun) nofun

theorem not_doc (h : IsOrdinaryComment comment) (hsplit : comment = front ++ text) :
    ¬ "/**".toList <+: text := by
  rintro ⟨more, rfl⟩
  have hrun := run_lead h hsplit (.tail _ (.tail _ (.tail _ (.head _))))
  rw [literal, run_exactly_append] at hrun
  cases hrun

end IsOrdinaryComment

/-- What holds no end of a comment lies in the comment when it begins there. -/
theorem exists_left (hstop : stop ∉ word) (h : text ++ stop :: rest = word ++ front) :
    ∃ left, text = word ++ left ∧ front = left ++ stop :: rest := by
  obtain ⟨left, rfl⟩ := isPrefix_of_not_mem hstop ⟨front, h.symm⟩
  rw [List.append_assoc, List.append_cancel_left_eq] at h
  exact ⟨left, rfl, h.symm⟩

/-- The character behind it is in the comment too. -/
theorem exists_behind (hstop : stop ∉ word) (h : text ++ stop :: rest = word ++ c :: front) :
    ∃ left, text ++ [stop] = word ++ c :: left := by
  obtain ⟨left, rfl, hleft⟩ := exists_left hstop h
  cases left with
  | nil =>
    obtain ⟨rfl, -⟩ := List.cons.inj hleft
    exact ⟨[], by rw [List.append_nil]⟩
  | cons d left =>
    obtain ⟨rfl, -⟩ := List.cons.inj hleft
    exact ⟨left ++ [stop], by rw [List.append_assoc, List.cons_append]⟩

section Place
variable {κ : Type} {groups : List (κ × Span)} {goOn : Place κ → Option (Place κ)}
  (hstop : IsStop stop) (hsplit : comment = front ++ (text ++ [stop]))
include hstop hsplit

/-- No visibility in front of a blank begins in a text without such words. -/
theorem run_visibility_wordless (h : IsWordless comment)
    (hgo : ∀ there last, goOn there = some last →
    ∃ c more, there.cursor.rest = c :: more ∧ Text.isBlank c) :
    visibility.run ⟨between before (text ++ stop :: rest), groups⟩ goOn = none := by
  refine Option.eq_none_iff_forall_ne_some.mpr fun last hrun => ?_
  obtain ⟨there, hleads, hlast⟩ := exists_leads hrun
  obtain ⟨pattern, hpattern, hleads⟩ := hleads.firstOf_inv
  obtain ⟨name, hname, rfl⟩ := List.mem_map.mp hpattern
  obtain ⟨word, hword, hsame⟩ := hleads.caseless_inv
  obtain ⟨c, more, hmore, hc⟩ := hgo there last hlast
  rw [hmore] at hword
  obtain ⟨left, hleft⟩ := exists_behind (hstop.not_mem (isLowerName_visibility name hname) hsame)
    hword
  exact h.not_visibility hname hsame hc (hleft ▸ hsplit)

theorem run_annotation_comment (h : IsOrdinaryComment comment) :
    ( annotation : Pattern κ).run ⟨between before (text ++ stop :: rest), groups⟩ some = none := by
  refine Option.eq_none_iff_forall_ne_some.mpr fun last hrun => ?_
  obtain ⟨there, hleads, -⟩ := exists_leads hrun
  obtain ⟨behindMarks, hleads, hblanks⟩ := leads_append.mp hleads
  obtain ⟨behindName, hname, hmarks⟩ := leads_append.mp hleads
  obtain ⟨behindAt, hat, hname⟩ := leads_append.mp hname
  obtain ⟨hrest, -⟩ := hat.char_inv
  obtain ⟨name, hrest', hne, hword⟩ := hname.plusOne_inv
  obtain ⟨c, more, hmore, hc⟩ : ∃ c more, behindName.cursor.rest = c :: more ∧
    (Text.isBlank c ∨ c = '(') := by
    rcases leads_maybe.mp hmarks with hmarks | rfl
    · obtain ⟨middle, hleads, -⟩ := leads_append.mp hmarks
      obtain ⟨next, hopen, -⟩ := leads_append.mp hleads
      exact ⟨'(', _, hopen.char_inv.1, .inr rfl⟩
    · obtain ⟨next, hone, -⟩ := leads_append.mp hblanks
      obtain ⟨c, hrest, hc, -⟩ := hone.one_inv
      exact ⟨c, _, hrest, .inl hc⟩
  have hnot : stop ∉ '@' :: name := by
    refine List.not_mem_cons_of_ne_of_not_mem hstop.ne_at fun hmem => ?_
    have hchar := hword stop hmem
    rw [hstop.isWord] at hchar
    cases hchar
  have hsource : text ++ stop :: rest = ('@' :: name) ++ c :: more := by
    rw [List.cons_append, ← hmore, ← hrest', ← hrest]
    rfl
  obtain ⟨left, hleft⟩ := exists_behind hnot hsource
  exact h.not_annotation hne hword hc (hleft ▸ hsplit)

end Place

section Quiet
variable {pattern finish : Pattern MemberPart} {mark : Char} {passed gap : Text}
  (hpattern : IsMemberPattern pattern finish mark) (h : IsComment comment)
    (hrest : rest.head? ≠ some '*')
include hpattern h hrest

theorem matchAt_comment (hsplit : comment = front ++ text)
    (hsolid : ∃ c ∈ text, Text.isBlank c = false)
    (hpassed : ∀ c ∈ passed, Text.isBlank c) :
    pattern.matchAt (between before (passed ++ (text ++ rest))) = none := by
  obtain ⟨blanks, solid, rfl, hblanks, hhead⟩ := Text.exists_leading_blanks text
  have hne : solid ≠ [] := by
    rintro rfl
    obtain ⟨c, hc, hsolid⟩ := hsolid
    rw [hblanks c (List.append_nil blanks ▸ hc)] at hsolid
    cases hsolid
  rw [← List.append_assoc] at hsplit
  have hdoc : ¬ "/**".toList <+: solid ++ rest := by
    refine Text.not_isPrefix_append (h.ordinary.not_doc hsplit) hne fun c hc hmem => hrest ?_
    have hall : ∀ d ∈ "/**".toList.tail, d = '*' := by decide
    rw [Option.mem_def.mp hc, hall c hmem]
  obtain ⟨body, stop, rfl, hstop⟩ := h.exists_stop hsplit hne
  have hfront : ∀ c ∈ passed ++ blanks, Text.isBlank c :=
    List.forall_mem_append.mpr ⟨hpassed, hblanks⟩
  have hsource : passed ++ (blanks ++ (body ++ [stop]) ++ rest) = (passed ++ blanks) ++
    (body ++ stop :: rest) := by simp
  have hsolid : body ++ [stop] ++ rest = body ++ stop :: rest := by simp
  rw [hsolid] at hdoc
  rw [hsource, matchAt_front hpattern hfront ?_ (not_doc_append hfront hdoc)]
  · rw [openingPattern, run_append, run_group,
      run_star_stop (run_annotation_comment hstop hsplit h.ordinary), run_group,
      run_visibility_wordless hstop hsplit h.ordinary.isWordless]
    · exact ite_self none
    · intro there last hlast
      have hhead := begins_signatureRest.exists_cons hlast
      exact hhead
  · intro c hc
    refine hhead c ?_
    cases body with
    | nil => exact hc
    | cons d body => exact hc

/-- The scan comes to the last character of a comment that is not blank. -/
theorem quiet_comment (hgap : ∀ c ∈ gap, Text.isBlank c) : ∃ solid left, comment = solid ++ left ∧
    (∀ c ∈ left, Text.isBlank c) ∧ (behind before (gap ++ solid)).any Text.isBlank = false ∧
    Quiet pattern before (gap ++ solid) (left ++ rest) := by
  have hslash : ∃ c ∈ comment, Text.isBlank c = false := by
    obtain ⟨inside, stop, rfl, -⟩ := h.shape
    exact ⟨'/', List.mem_cons_self, by decide⟩
  obtain ⟨body, c, left, hsplit, hc, hleft⟩ := Text.exists_trailing_blanks hslash
  have hsource : comment = (body ++ [c]) ++ left := by
    rw [hsplit, List.append_assoc, List.singleton_append]
  refine ⟨body ++ [c], left, hsource, hleft, ?_, quiet_of_forall fun first d more heq => ?_⟩
  · rw [← List.append_assoc, behind_concat]
    exact hc
  · rcases List.append_eq_append_iff.mp heq with ⟨passed, rfl, hmore⟩ | ⟨passed, rfl, hmore⟩
    · have hlast : (d :: more).getLast? = some c := by
        rw [← List.getLast?_append_of_ne_nil passed (List.cons_ne_nil d more), ← hmore,
          List.getLast?_concat]
      have hcomment : comment = passed ++ (d :: more ++ left) := by
        rw [hsource, hmore, List.append_assoc]
      have hsolid : ∃ e ∈ d :: more ++ left, Text.isBlank e = false :=
        ⟨c, List.mem_append_left left (List.mem_of_getLast? hlast), hc⟩
      have hnone : pattern.matchAt
        (between (behind before (gap ++ passed)) ([] ++ (d :: more ++ left ++ rest))) = none :=
        matchAt_comment hpattern h hrest hcomment hsolid (List.forall_mem_nil _)
      rw [List.nil_append, List.append_assoc] at hnone
      exact hnone
    · have hpassed : ∀ e ∈ passed, Text.isBlank e :=
        fun e he => hgap e (List.mem_append_right first he)
      have htext : d :: (more ++ (left ++ rest)) = passed ++ (comment ++ rest) := by
        rw [← List.cons_append, hmore, hsource]
        simp only [List.append_assoc]
      rw [htext]
      exact matchAt_comment hpattern h hrest (List.nil_append comment).symm hslash hpassed

end Quiet

end Visualforce.Apex
