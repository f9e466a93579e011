import Visualforce.Proofs.Apex.Comments

/-! # Scanning members

The scan for properties and the scan for methods go from entry to entry. Each takes the members of
its kind, with what the outline says of them, and passes the other ones, comments, and the blanks
that stand for inner classes.
-/
namespace Visualforce.Apex
open Pattern Cursor

variable {before : Option Char} {rest : Text}

theorem run_accessor {κ : Type} {groups : List (κ × Span)} {goOn : Place κ → Option (Place κ)}
    {last : Place κ}
    {name : String} (hname : ∀ c ∈ name.toList, Text.isBlank c = false)
    (hrest : ∀ c ∈ rest.head?, Text.isBlank c = false)
    (hgo : goOn ⟨between (some ' ') rest, groups⟩ = some last) :
    (accessor name).run ⟨between before (name.toList ++ ';' :: ' ' :: rest), groups⟩ goOn =
      some last := by
  have hnone : ∀ goOn, (plus wordChar ++ blanks : Pattern κ).run
      ⟨between before (name.toList ++ ';' :: ' ' :: rest), groups⟩ goOn = none := by
    intro goOn
    refine run_plusOne_none _ fun passed behind heq hpassed => begins_blanks _ _ _ _ fun c hc => ?_
    obtain ⟨more, rfl⟩ := List.head?_eq_some_iff.mp hc
    -- no word character is a semicolon, so the word ends before it
    have hsemicolon : ';' ∉ passed := fun hmem => absurd (hpassed ';' hmem) (by decide)
    obtain ⟨left, hleft⟩ : passed <+: name.toList := isPrefix_of_not_mem hsemicolon ⟨_, heq.symm⟩
    rw [← hleft, List.append_assoc, List.append_cancel_left_eq] at heq
    cases left with
    | nil =>
      rw [← (List.cons.inj heq).1]
      decide
    | cons d left =>
      rw [← (List.cons.inj heq).1]
      exact hname d (hleft ▸ by simp)
  rw [accessor, run_append, run_append, run_append, run_append, run_maybe, hnone, Option.none_or,
    anyCase, run_caseless_append, blank, run_star_stop]
  · simp only [char, run_one_cons, beq_self_eq_true, if_true]
    exact run_starOne_of_some (List.forall_mem_singleton.mpr (by decide)) hrest hgo
  · exact run_one_of_head? (by rintro c ⟨⟩; decide)

def propertyFinish : Pattern MemberPart := char '\x7b' ++ star blank ++ accessor "get" ++
    accessor "set" ++ char '\x7d'

def methodFinish : Pattern MemberPart :=
  char '(' ++ group .parameters (star (noneOf ")")) ++ char ')' ++ star blank ++ char '\x7b'

theorem isMemberPattern_property : IsMemberPattern propertyPattern propertyFinish '\x7b' :=
  ⟨fun _ _ => rfl, (((Begins.one _).append _ |>.append _).append _).append _⟩

theorem isMemberPattern_method : IsMemberPattern methodPattern methodFinish '(' :=
  ⟨fun _ _ => rfl, (((Begins.one _).append _ |>.append _).append _).append _⟩

theorem run_propertyFinish {rest : Text} (groups : List (MemberPart × Span)) :
    propertyFinish.run ⟨between before ('\x7b' :: (" get; set; \x7d".toList ++ rest)), groups⟩
      some =
      some ⟨between (some '\x7d') rest, groups⟩ := by
  have hset : (accessor "set" ++ char '\x7d' : Pattern MemberPart).run
      ⟨between (some ' ') ("set".toList ++ ';' :: ' ' :: '\x7d' :: rest), groups⟩ some =
        some ⟨between (some '\x7d') rest, groups⟩ := by
    refine run_accessor (by decide) ?_ rfl
    rintro c ⟨⟩
    decide
  have hget : (accessor "get" ++ (accessor "set" ++ char '\x7d') : Pattern MemberPart).run
      ⟨between (some ' ')
        ("get".toList ++ ';' :: ' ' :: ("set".toList ++ ';' :: ' ' :: '\x7d' :: rest)),
        groups⟩ some =
        some ⟨between (some '\x7d') rest, groups⟩ := by
    refine run_accessor (by decide) ?_ hset
    rintro c ⟨⟩
    decide
  have hspace : ∀ c ∈ [' '], Text.isBlank c := by decide
  have hblanks : (star blank ++ (accessor "get" ++ (accessor "set" ++ char '\x7d')) :
    Pattern MemberPart).run
      ⟨between (some '\x7b')
        ([' '] ++ ("get".toList ++ ';' :: ' ' :: ("set".toList ++ ';' :: ' ' :: '\x7d' :: rest))),
          groups⟩ some = some ⟨between (some '\x7d') rest, groups⟩ := by
    refine run_starOne_of_some hspace ?_ hget
    rintro c ⟨⟩
    decide
  exact hblanks

theorem run_methodFinish {parameters : Text} (h : IsParameters parameters)
    (groups : List (MemberPart × Span)) :
    methodFinish.run ⟨between before ('(' :: (parameters ++ ')' :: ' ' :: '\x7b' :: rest)), groups⟩
      some =
      some ⟨between (some '\x7b') rest,
        (.parameters, (between (some '(') (parameters ++ ')' :: ' ' :: '\x7b' :: rest)).spanTo
          (between (behind (some '(') parameters) (')' :: ' ' :: '\x7b' :: rest))) :: groups⟩ := by
  have hopen : ∀ c ∈ parameters, !(")".toList.contains c) := by
    intro c hc
    have hclosing : ∀ d ∈ ")".toList, isArgumentChar d = false := by decide
    rw [Bool.not_eq_true', ← Bool.not_eq_true, List.contains_iff_mem]
    intro hmem
    have hchar := h.chars c hc
    rw [hclosing c hmem] at hchar
    cases hchar
  have hspace : ∀ c ∈ [' '], Text.isBlank c := by decide
  have hblanks : ∀ groups, (star blank ++ char '\x7b' : Pattern MemberPart).run
      ⟨between (some ')') ([' '] ++ '\x7b' :: rest), groups⟩ some =
        some ⟨between (some '\x7b') rest, groups⟩ := by
    refine fun groups => run_starOne_of_some hspace ?_ rfl
    rintro c ⟨⟩
    decide
  simp only [methodFinish, run_append, run_group, char, run_one_cons, beq_self_eq_true, if_true]
  refine run_starOne_of_some hopen ?_ (hblanks _)
  rintro c ⟨⟩
  decide

theorem group_eq (hit : Hit MemberPart) (key : MemberPart) :
    hit.group key = ((textsOf hit.groups).lookup key).getD [] := by
  rw [textsOf, lookup_map]
  rfl

theorem lowerKeyword_of_letters {word : Text} (h : ∀ c ∈ word, c.toLower.isLower) :
    Text.lowerKeyword word = word.map Char.toLower := by
  induction word with
  | nil => rfl
  | cons c word ih =>
    obtain ⟨hc, hword⟩ := List.forall_mem_cons.mp h
    have hascii : c.toNat < 128 := toNat_lt_of_toLower (toNat_lt_of_isLower hc)
    have hne : (c.toNat == 0x130) = false := beq_false_of_ne (by omega)
    rw [Text.lowerKeyword, List.flatMap_cons, hne, ← Text.lowerKeyword, ih hword]
    rfl

theorem ne_space_of_last {type : Text} (h : HasTypeShape type) : type.getLast? ≠ some ' ' := by
  obtain ⟨-, hname, harguments, harray⟩ := h
  rename_i name arguments array
  intro hlast
  rcases harray with rfl | rfl
  · rcases harguments with rfl | ⟨inside, rfl, -⟩
    · rw [List.append_nil, List.append_nil] at hlast
      exact absurd (hname ' ' (List.mem_of_getLast? hlast)) (by decide)
    · rw [List.append_nil, ← List.append_assoc, List.getLast?_concat] at hlast
      exact absurd hlast (by decide)
  · rw [← List.append_assoc, List.getLast?_append_of_ne_nil _ (by decide)] at hlast
    exact absurd hlast (by decide)

theorem isSingleSpaced_type {type : Text} (h : IsType type) : Text.IsSingleSpaced type := by
  have hhead : ∀ c ∈ (type ++ []).head?, Text.isBlank c = false := head?_type h.shape
  rw [List.append_nil] at hhead
  refine ⟨fun c hc => eq_space_of_isTailChar (class_of_type h.shape c hc), h.single, fun hfront =>
    ?_, ne_space_of_last h.shape⟩
  exact absurd (hhead ' ' hfront) (by decide)

theorem isSingleSpaced_parameters {parameters : Text} (h : IsParameters parameters) :
    Text.IsSingleSpaced parameters := by
  refine ⟨fun c hc => eq_space_of_isTailChar ?_, h.single, h.front, h.back⟩
  simp [isTailChar, h.chars c hc]

theorem words_modifiersSource {modifiers : List Text}
    (h : ∀ word ∈ modifiers, IsOneOf modifierNames word) :
    Text.words (modifiersSource modifiers) = modifiers := by
  refine Text.words_flatMap fun word hword => ⟨?_, fun c hc => ?_⟩
  · rintro rfl
    exact absurd (h [] hword) (by decide)
  · exact (class_of_letter (toLower_of_isOneOf isLowerName_modifier (h word hword) c hc)).1

variable {signature : Signature} {annotations : List Text} {hit : Hit MemberPart}
    {docs : List (MemberPart × Text)}

/-- What is said in front of a member, if it says anything. -/
def saidIn (docs : List (MemberPart × Text)) : Option Text :=
  nonEmpty? (cleanDoc ((docs.lookup .doc).getD []))

theorem saidIn_nil : saidIn [] = none := rfl

theorem saidIn_doc (text : Text) : saidIn [(.doc, text)] = nonEmpty? (cleanDoc text) := by
  rw [saidIn, List.lookup_cons_self, Option.getD_some]

theorem propertyOf_eq (h : signature.IsPlain) {source : Text}
    (hgroups : textsOf hit.groups = signature.texts source ++ docs) :
    propertyOf hit = { signature.property with
        description := (saidIn docs).getD signature.property.description } := by
  have hread : propertyOf hit =
    ⟨signature.name, Text.collapse signature.type, Text.lowerKeyword signature.visibility,
      Text.words (modifiersSource signature.modifiers),
      (saidIn docs).getD ("Property ".toList ++ signature.name ++ " of type ".toList ++
      Text.collapse signature.type)⟩ := by
    simp only [propertyOf, description, group_eq, hgroups]
    rfl
  rw [hread, Text.collapse_of_isSingleSpaced (isSingleSpaced_type h.type),
    words_modifiersSource h.modifiers, lowerKeyword_of_letters
    (toLower_of_isOneOf isLowerName_visibility h.visibility)]
  rfl

theorem methodOf_eq (h : signature.IsPlain) {annotations : List AnnotationText} {parameters : Text}
    (hparameters : IsParameters parameters) (hgroups : textsOf hit.groups =
      (.parameters, parameters) :: signature.texts (annotations.flatMap AnnotationText.source) ++
        docs) :
    methodOf hit = { signature.method [] parameters with
      annotations := annotations.flatMap AnnotationText.listed
      description := (saidIn docs).getD (signature.method [] parameters).description } := by
  have hread : methodOf hit =
    ⟨signature.name, Text.collapse signature.type, Text.lowerKeyword signature.visibility,
      Text.collapse parameters, Text.words (modifiersSource signature.modifiers),
      (Text.words (annotations.flatMap AnnotationText.source)).map (·.takeWhile (· != '(')),
      (saidIn docs).getD ("Method ".toList ++ signature.name ++ " returning ".toList ++
      Text.collapse signature.type)⟩ := by
    simp only [methodOf, description, group_eq, hgroups]
    rfl
  rw [hread, Text.collapse_of_isSingleSpaced (isSingleSpaced_type h.type),
    words_modifiersSource h.modifiers, lowerKeyword_of_letters
    (toLower_of_isOneOf isLowerName_visibility h.visibility), Text.collapse_of_isSingleSpaced
      (isSingleSpaced_parameters hparameters), AnnotationText.words_flatMap_source]
  rfl

/-- The characters that members, inner classes and comments begin with. -/
def isEntryStart (c : Char) : Bool := "/@pgPG".toList.contains c

/-- Behind blanks stands an entry or nothing. -/
def IsAhead (rest : Text) : Prop := ∀ c ∈ (rest.dropWhile Text.isBlank).head?, isEntryStart c

theorem isAhead_nil : IsAhead [] := nofun

theorem isAhead_cons {c : Char} (h : isEntryStart c) : IsAhead (c :: rest) := by
  have hall : ∀ c ∈ "/@pgPG".toList, Text.isBlank c = false := by decide
  have hblank := hall c (List.contains_iff_mem.mp h)
  rw [IsAhead, List.dropWhile_cons_of_neg (by simp [hblank])]
  rintro d ⟨⟩
  exact h

theorem IsAhead.head?_ne (h : IsAhead rest) : rest.head? ≠ some '*' := by
  intro hstar
  obtain ⟨more, rfl⟩ := List.head?_eq_some_iff.mp hstar
  rw [IsAhead, List.dropWhile_cons_of_neg (by decide)] at h
  exact absurd (h '*' rfl) (by decide)

/-- Where an entry may follow, the text may be followed by it. -/
def KeepsAhead (text : Text) : Prop := ∀ rest, IsAhead rest → IsAhead (text ++ rest)

theorem keepsAhead_blanks {blanks : Text} (h : ∀ c ∈ blanks, Text.isBlank c) :
    KeepsAhead blanks := by
  intro rest hrest
  rw [IsAhead, List.dropWhile_append_of_pos h]
  exact hrest

theorem keepsAhead_cons {c : Char} {text : Text} (h : isEntryStart c) : KeepsAhead (c :: text) :=
  fun _ _ => isAhead_cons h

theorem KeepsAhead.append {first second : Text} (hfirst : KeepsAhead first)
    (hsecond : KeepsAhead second) :
    KeepsAhead (first ++ second) := by
  intro rest hrest
  rw [List.append_assoc]
  exact hfirst _ (hsecond rest hrest)

theorem keepsAhead_visibility {word : Text} (h : IsOneOf visibilityNames word) (text : Text) :
    KeepsAhead (word ++ text) := by
  have hnames : ∀ name ∈ visibilityNames, ∃ c more, name.toList = c :: more ∧
    (c = 'p' ∨ c = 'g') := by
    simp [visibilityNames]
  have hchars : ∀ n : Fin 128, (Char.ofNat n).toLower = 'p' ∨ (Char.ofNat n).toLower = 'g' →
    isEntryStart (Char.ofNat n) := by
    decide
  obtain ⟨name, hname, hlower⟩ := List.mem_map.mp h
  obtain ⟨c, more, hletters, hc⟩ := hnames name hname
  cases word with
  | nil => exact absurd (hletters.symm.trans hlower) (List.cons_ne_nil c more)
  | cons d word =>
    have hd : c = d.toLower := (List.cons.inj (hletters.symm.trans hlower)).1
    have hascii : d.toNat < 128 := by
      refine toNat_lt_of_toLower ?_
      rcases hc with rfl | rfl
      · rw [← hd]
        decide
      · rw [← hd]
        decide
    have hstart := hchars ⟨d.toNat, hascii⟩
    simp only [Char.ofNat_toNat, ← hd] at hstart
    exact keepsAhead_cons (hstart hc)

theorem keepsAhead_annotations (annotations : List Text) :
    KeepsAhead (annotationsSource annotations) := by
  cases annotations with
  | nil => exact fun _ hrest => hrest
  | cons name annotations => exact keepsAhead_cons (by decide)

theorem keepsAhead_filler {filler : Filler} (h : filler.IsOrdinary) : KeepsAhead filler.source := by
  cases filler with
  | blanks text => exact keepsAhead_blanks h
  | line text => exact keepsAhead_cons (by decide)
  | block text => exact keepsAhead_cons (by decide)

theorem keepsAhead_source {entry : Entry} (h : entry.IsPlain) : KeepsAhead entry.source := by
  cases entry with
  | filler filler =>
    rw [Entry.IsPlain] at h
    rw [Entry.source]
    exact keepsAhead_filler h
  | property signature =>
    rw [Entry.IsPlain] at h
    rw [Entry.source, Member.source, Signature.source, List.append_assoc]
    exact keepsAhead_visibility h.visibility _
  | method annotations signature parameters =>
    rw [Entry.IsPlain] at h
    rw [Entry.source, Member.source, Signature.source, List.append_assoc, List.append_assoc]
    exact (keepsAhead_annotations annotations).append (keepsAhead_visibility h.2.1.visibility _)
  | inner name entries =>
    rw [Entry.source]
    exact keepsAhead_cons (by decide)

/-- What stands for an entry among the members of its class: blanks for an inner class. -/
def Entry.shown : Entry → Text
  | .inner name entries => List.replicate (Entry.inner name entries).source.length ' '
  | entry => entry.source

theorem isBlank_shown_inner (name : Text) (entries : List Entry) :
    ∀ c ∈ (Entry.inner name entries).shown, Text.isBlank c := by
  intro c hc
  rw [List.eq_of_mem_replicate hc]
  decide

theorem keepsAhead_shown {entry : Entry} (h : entry.IsPlain) : KeepsAhead entry.shown := by
  cases entry with
  | inner name entries => exact keepsAhead_blanks (isBlank_shown_inner name entries)
  | filler filler => exact keepsAhead_source h
  | property signature => exact keepsAhead_source h
  | method annotations signature parameters => exact keepsAhead_source h

/-- The end of a line, up to the brace, in which another mark than the one looked for stands behind
the name. -/
structure IsOtherEnd (mark : Char) (ending : Text) : Prop where
  isLineEnd : IsLineEnd ending
  apart : isUnmarked mark = false ∧ ∃ space other more, ending = space ++ other :: more ∧
    (∀ c ∈ space, isUnmarked c) ∧ isUnmarked other = false ∧ other ≠ mark

theorem IsOtherEnd.run_tail_none {pattern finish : Pattern MemberPart} {mark : Char} {ending : Text}
    {groups : List (MemberPart × Span)} (hending : IsOtherEnd mark ending)
    (hpattern : IsMemberPattern pattern finish mark)
    (h : signature.IsPlain) :
    signatureRest.run ⟨between before (signature.tail ++ (ending ++ '\x7d' :: rest)), groups⟩
      (fun there => finish.run there some) = none := by
  obtain ⟨hmark, space, other, more, rfl, hspace, hother, hne⟩ := hending.apart
  rw [List.append_assoc, List.cons_append]
  exact Apex.run_tail_none hpattern h hspace hmark hother hne

theorem isOtherEnd_accessors : IsOtherEnd '(' " \x7b get; set; ".toList :=
  ⟨isLineEnd_accessors, by decide, [' '], '\x7b', " get; set; ".toList, rfl, by decide, by
    decide, by decide⟩

theorem isOtherEnd_parameters {parameters : Text} (h : IsParameters parameters) :
    IsOtherEnd '\x7b' ('(' :: (parameters ++ ") \x7b ".toList)) :=
  ⟨isLineEnd_parameters h, by decide, [], '(', _, rfl, List.forall_mem_nil _, by decide, by decide⟩

/-- From a gap behind what is no blank the scan passes the text with what it shows, and comes to
such a gap. -/
def Collects {α : Type} (pattern : Pattern MemberPart) (view : Hit MemberPart → α) (text : Text)
    (values : List α) : Prop :=
  ∀ before gap rest, before.any Text.isBlank = false → (∀ c ∈ gap, Text.isBlank c) → IsAhead rest →
    ∃ after left, after.any Text.isBlank = false ∧ (∀ c ∈ left, Text.isBlank c) ∧
      Scans pattern (seen view) (between before (gap ++ (text ++ rest))) values
        (between after (left ++ rest))

theorem beginsNone_nil : BeginsNone [] := by
  intro name hname word hsame hbegins
  have hall : ∀ name ∈ "class" :: visibilityNames, name.toList ≠ [] := by decide
  rw [List.prefix_nil.mp hbegins] at hsame
  exact hall name hname (List.forall₂_nil_right_iff.mp hsame)

namespace Collects

variable {α : Type} {view : Hit MemberPart → α} {pattern finish : Pattern MemberPart} {mark : Char}
variable {first second text : Text} {values others : List α}

theorem nil : Collects pattern view [] [] :=
  fun before gap _ hbefore hgap _ => ⟨before, gap, hbefore, hgap, .done _⟩

theorem append (hfirst : Collects pattern view first values)
    (hsecond : Collects pattern view second others)
    (hahead : KeepsAhead second) : Collects pattern view (first ++ second) (values ++ others) := by
  intro before gap rest hbefore hgap hrest
  obtain ⟨middle, left, hmiddle, hleft, hscan⟩ :=
    hfirst before gap (second ++ rest) hbefore hgap (hahead rest hrest)
  obtain ⟨after, left', hafter, hleft', hscan'⟩ := hsecond middle left rest hmiddle hleft hrest
  rw [List.append_assoc]
  exact ⟨after, left', hafter, hleft', hscan.append hscan'⟩

theorem of_blanks (h : ∀ c ∈ text, Text.isBlank c) : Collects pattern view text [] := by
  intro before gap rest hbefore hgap _
  rw [← List.append_assoc]
  exact ⟨before, gap ++ text, hbefore, List.forall_mem_append.mpr ⟨hgap, h⟩, .done _⟩

/-- The blanks that a comment ends with belong to the next gap. -/
theorem of_comment {comment : Text} (hpattern : IsMemberPattern pattern finish mark)
    (h : IsComment comment) :
    Collects pattern view comment [] := by
  intro before gap rest _ hgap hrest
  obtain ⟨solid, left, rfl, hleft, hbehind, hquiet⟩ := quiet_comment hpattern h hrest.head?_ne hgap
  have hscan := hquiet.scans_seen view
  refine ⟨_, left, hbehind, hleft, ?_⟩
  simpa only [List.append_assoc] using hscan

/-- No hit in a member of another kind. -/
theorem of_other {signature : Signature} {annotations : List Text} {ending : Text}
    (hpattern : IsMemberPattern pattern finish mark) (h : signature.IsPlain)
    (hannotations : ∀ name ∈ annotations, IsIdentifier name) (hending : IsOtherEnd mark ending) :
    Collects pattern view (annotationsSource annotations ++
      (signature.source ++ (ending ++ ['\x7d']))) [] := by
  intro before gap rest _ hgap _
  have hquiet : Quiet pattern before
      (gap ++ (annotationsSource annotations ++ (signature.source ++ (ending ++ ['\x7d'])))) rest :=
    quiet_member hpattern h hannotations hgap hending.isLineEnd fun _ _ =>
      hending.run_tail_none hpattern h
  refine ⟨some '\x7d', [], by decide, List.forall_mem_nil _, ?_⟩
  have hscan := hquiet.scans_seen view
  have hbehind : ∀ passed, behind before (passed ++ ['\x7d']) = some '\x7d' :=
    fun passed => behind_concat before passed _
  simp only [← List.append_assoc, hbehind] at hscan ⊢
  exact hscan

/-- A match in the text is taken when the scan finds nothing between its end and the end of the
text. -/
theorem of_hit {value : α} (mark : Char) (left : Text) (hlength : left.length < text.length)
    (hquiet : ∀ rest, Quiet pattern (some mark) left rest)
    (hbehind : (behind (some mark) left).any Text.isBlank = false)
    (hmatch : ∀ before gap rest, before.any Text.isBlank = false → (∀ c ∈ gap, Text.isBlank c) →
    ∃ hit,
      pattern.matchAt (between before (gap ++ (text ++ rest))) = some hit ∧
      hit.stop = between (some mark) (left ++ rest) ∧ view hit = value) :
    Collects pattern view text [value] := by
  intro before gap rest hbefore hgap _
  obtain ⟨hit, hhit, hstop, rfl⟩ := hmatch before gap rest hbefore hgap
  have hlt : hit.stop.left < (between before (gap ++ (text ++ rest))).left := by
    rw [hstop]
    simp only [between_left, List.length_append]
    omega
  have hscan := Scans.single view hhit hlt
  rw [hstop] at hscan
  exact ⟨_, [], hbehind, List.forall_mem_nil _, hscan.append ((hquiet rest).scans_seen view)⟩

/-- Nothing is found in the gap that a text ends with. -/
theorem hits (hpattern : IsMemberPattern pattern finish mark)
    (h : Collects pattern view text values) :
    (pattern.hits text).map view = values := by
  obtain ⟨after, left, -, hleft, hscan⟩ := h none [] [] rfl (List.forall_mem_nil _) isAhead_nil
  have hend : Quiet pattern after left [] := by
    refine quiet_of_forall fun front c more hsplit => ?_
    have hblank : ∀ d ∈ c :: more, Text.isBlank d :=
      fun d hd => hleft d (hsplit ▸ List.mem_append_right front hd)
    have hnone : pattern.matchAt (between (behind after front) (c :: more ++ [])) = none := by
      refine matchAt_front_none hpattern hblank ?_ beginsNone_nil
      rintro d ⟨⟩
    exact hnone
  have hall := hscan.append (hend.scans_seen view)
  rw [List.nil_append, List.append_nil, List.append_nil] at hall
  exact hall.hits

end Collects

/-- Nothing is found in the rest of a method that a match of it leaves. -/
theorem quiet_methodEnd : Quiet methodPattern (some '\x7b') [' ', '\x7d'] rest := by
  have hspace : Quiet methodPattern (some '\x7b') [' '] (['\x7d'] ++ rest) :=
    quiet_line isMemberPattern_method (by decide) (by decide) (by decide) (.inl (by decide))
  exact hspace.append (quiet_brace isMemberPattern_method)

section Hits
variable {annotations : List AnnotationText} {front : Text} {after : Option Char}
    {docs : List (MemberPart × Span)}
  (h : signature.IsPlain)
include h

theorem exists_property (hfront : Passes before front
      (annotations.flatMap AnnotationText.source ++ (signature.source ++ (accessorsSource ++ rest)))
        after docs) : ∃ hit,
    propertyPattern.matchAt (between before (front ++
        (annotations.flatMap AnnotationText.source ++
          (signature.source ++ (accessorsSource ++ rest))))) = some hit ∧
      hit.stop = between (some '\x7d') rest ∧ propertyOf hit =
        { signature.property with
          description := (saidIn (textsOf docs)).getD signature.property.description } := by
  have hspace : accessorsSource ++ rest = [' '] ++ '\x7b' :: (" get; set; \x7d".toList ++ rest) :=
    rfl
  rw [hspace] at hfront ⊢
  obtain ⟨hit, hhit, hstop, hgroups⟩ := exists_matchAt isMemberPattern_property h (.inr rfl)
    (.inl rfl) []
    (fun _ groups => run_propertyFinish groups) hfront
  exact ⟨hit, hhit, hstop, propertyOf_eq h hgroups⟩

theorem exists_method {parameters : Text} (hparameters : IsParameters parameters)
    (hfront : Passes before front
      (annotations.flatMap AnnotationText.source ++
        (signature.source ++ (parametersSource parameters ++ rest))) after docs) :
    ∃ hit, methodPattern.matchAt (between before (front ++
        (annotations.flatMap AnnotationText.source ++
          (signature.source ++ (parametersSource parameters ++ rest))))) = some hit ∧
      hit.stop = between (some '\x7b') (' ' :: '\x7d' :: rest) ∧ methodOf hit =
        { signature.method [] parameters with
          annotations := annotations.flatMap AnnotationText.listed
          description :=
            (saidIn (textsOf docs)).getD (signature.method [] parameters).description } := by
  have hspace : parametersSource parameters ++ rest =
      [] ++ '(' :: (parameters ++ ')' :: ' ' :: '\x7b' :: (' ' :: '\x7d' :: rest)) := by
    simp [parametersSource]
  rw [hspace] at hfront ⊢
  obtain ⟨hit, hhit, hstop, hgroups⟩ := exists_matchAt isMemberPattern_method h (.inl rfl)
    (.inr rfl) [_]
    (fun _ groups => run_methodFinish hparameters groups) hfront
  refine ⟨hit, hhit, hstop, methodOf_eq h hparameters ?_⟩
  rw [hgroups]
  simp [textsOf, spanTo_text]

end Hits

theorem property_source : (Member.property signature).source =
    annotationsSource [] ++ (signature.source ++ (" \x7b get; set; ".toList ++ ['\x7d'])) := by
  rw [Member.source]
  rfl

theorem method_source (parameters : Text) :
    (Member.method annotations signature parameters).source =
    annotationsSource annotations ++
      (signature.source ++ ('(' :: (parameters ++ ") \x7b ".toList) ++ ['\x7d'])) := by
  rw [Member.source]
  simp [parametersSource]

theorem collects_filler {α : Type} {view : Hit MemberPart → α} {pattern finish : Pattern MemberPart}
    {mark : Char}
    (hpattern : IsMemberPattern pattern finish mark) {filler : Filler} (h : filler.IsOrdinary) :
    Collects pattern view filler.source [] := by
  cases filler with
  | blanks text => exact .of_blanks h
  | line text => exact .of_comment hpattern (isComment_line h)
  | block text => exact .of_comment hpattern (isComment_block h)

theorem collects_properties {entry : Entry} (h : entry.IsPlain) :
    Collects propertyPattern propertyOf entry.shown (entry.members.flatMap Member.properties) := by
  cases entry with
  | filler filler =>
    rw [Entry.IsPlain] at h
    exact collects_filler isMemberPattern_property h
  | property signature =>
    rw [Entry.IsPlain] at h
    have hlength : ([] : Text).length < (signature.source ++ accessorsSource).length := by
      rw [List.length_append]
      exact Nat.lt_of_lt_of_le (by decide) (Nat.le_add_left accessorsSource.length _)
    change Collects propertyPattern propertyOf (signature.source ++ accessorsSource)
      [signature.property]
    refine .of_hit '\x7d' [] hlength (fun _ => trivial) (by decide) fun before gap rest hbefore
      hgap => ?_
    obtain ⟨hit, hhit, hstop, hview⟩ := exists_property h (passes_gap [] h hgap hbefore)
    rw [List.append_assoc]
    refine ⟨hit, hhit, hstop, hview.trans ?_⟩
    rw [textsOf, List.map_nil, saidIn_nil, Option.getD_none]
  | method annotations signature parameters =>
    rw [Entry.IsPlain] at h
    obtain ⟨hannotations, hsignature, hparameters⟩ := h
    change Collects propertyPattern propertyOf
      (Member.method annotations signature parameters).source []
    rw [method_source]
    exact .of_other isMemberPattern_property hsignature hannotations
      (isOtherEnd_parameters hparameters)
  | inner name entries =>
    rw [Entry.members]
    exact .of_blanks (isBlank_shown_inner name entries)

theorem collects_methods {entry : Entry} (h : entry.IsPlain) :
    Collects methodPattern methodOf entry.shown (entry.members.flatMap Member.methods) := by
  cases entry with
  | filler filler =>
    rw [Entry.IsPlain] at h
    exact collects_filler isMemberPattern_method h
  | property signature =>
    rw [Entry.IsPlain] at h
    change Collects methodPattern methodOf (Member.property signature).source []
    rw [property_source]
    exact .of_other isMemberPattern_method h (List.forall_mem_nil _) isOtherEnd_accessors
  | method annotations signature parameters =>
    rw [Entry.IsPlain] at h
    obtain ⟨hannotations, hsignature, hparameters⟩ := h
    have hlength : [' ', '\x7d'].length <
        (annotationsSource annotations ++ signature.source ++
          parametersSource parameters).length := by
      simp [parametersSource]
      omega
    change Collects methodPattern methodOf (annotationsSource annotations ++ signature.source ++
      parametersSource parameters)
      [signature.method annotations parameters]
    refine .of_hit '\x7b' [' ', '\x7d'] hlength (fun _ => quiet_methodEnd) (by decide)
      fun before gap rest hbefore hgap => ?_
    rw [List.append_assoc, List.append_assoc]
    obtain ⟨found, hsource, hlisted⟩ := AnnotationText.exists_annotations hannotations
    obtain ⟨hit, hhit, hstop, hview⟩ :=
      exists_method hsignature hparameters (passes_gap found hsignature hgap hbefore)
    rw [← hsource]
    refine ⟨hit, hhit, hstop, hview.trans ?_⟩
    rw [hlisted, textsOf, List.map_nil, saidIn_nil, Option.getD_none]
    rfl
  | inner name entries =>
    rw [Entry.members]
    exact .of_blanks (isBlank_shown_inner name entries)

theorem entriesArePlain_iff {entries : List Entry} : EntriesArePlain entries ↔
    ∀ entry ∈ entries, entry.IsPlain := by
  induction entries with
  | nil => simp [EntriesArePlain]
  | cons entry entries ih => rw [EntriesArePlain, ih, List.forall_mem_cons]

theorem hits_entries {α : Type} {view : Hit MemberPart → α} {values : Member → List α}
    {pattern finish : Pattern MemberPart} {mark : Char}
    (hpattern : IsMemberPattern pattern finish mark)
    (hcollects : ∀ {entry : Entry}, entry.IsPlain →
    Collects pattern view entry.shown (entry.members.flatMap values))
    {entries : List Entry} (h : EntriesArePlain entries) :
    (pattern.hits (entries.flatMap Entry.shown)).map view = (membersOf entries).flatMap values := by
  have hboth : Collects pattern view (entries.flatMap Entry.shown)
    ((membersOf entries).flatMap values) ∧
      KeepsAhead (entries.flatMap Entry.shown) := by
    induction entries with
    | nil => exact ⟨.nil, fun _ hrest => hrest⟩
    | cons entry entries ih =>
      rw [EntriesArePlain] at h
      obtain ⟨hrest, hahead⟩ := ih h.2
      rw [membersOf, List.flatMap_append, List.flatMap_cons]
      exact ⟨(hcollects h.1).append hrest hahead, (keepsAhead_shown h.1).append hahead⟩
  exact hboth.1.hits hpattern

theorem properties_hits {entries : List Entry} (h : EntriesArePlain entries) :
    (propertyPattern.hits (entries.flatMap Entry.shown)).map propertyOf =
      (membersOf entries).flatMap Member.properties :=
  hits_entries isMemberPattern_property collects_properties h

theorem methods_hits {entries : List Entry} (h : EntriesArePlain entries) :
    (methodPattern.hits (entries.flatMap Entry.shown)).map methodOf =
      (membersOf entries).flatMap Member.methods :=
  hits_entries isMemberPattern_method collects_methods h

end Visualforce.Apex
