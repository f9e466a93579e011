import Visualforce.Proofs.Markup.TagItem

/-! # Loosely written tags

Page markup writes the value of an attribute between quotes of either kind, without quotes or not at
all, with blanks before the attribute and around its equals sign. A start tag is recognised as a
whole, whichever of these ways its attributes are written in, and in normal form each of them has a
quoted value.
-/
namespace Visualforce.Markup
open Pattern Cursor

/-- An equals sign with the blanks around it, and a value with its quotes, if it has any. -/
structure Assigned where
  left : Text
  right : Text
  quote : Option Char
  value : Text

/-- An attribute with the blanks before it; one that assigns nothing counts as true. -/
structure LooseAttribute where
  gap : Text
  name : Text
  assigned : Option Assigned

namespace Assigned

def raw (assigned : Assigned) : Text :=
  match assigned.quote with
  | none => assigned.value
  | some quote => quote :: (assigned.value ++ [quote])

def source (assigned : Assigned) : Text := assigned.left ++ '=' :: (assigned.right ++ assigned.raw)

/-- What a value may hold as it is written. -/
structure IsLoose (assigned : Assigned) : Prop where
  left : ∀ c ∈ assigned.left, Text.isBlank c
  right : ∀ c ∈ assigned.right, Text.isBlank c
  quoted : ∀ quote ∈ assigned.quote, quote ∈ ['"', '\''] ∧ quote ∉ assigned.value
  unquoted : assigned.quote = none → assigned.value ≠ [] ∧ ∀ c ∈ assigned.value, isLooseValueChar c

end Assigned

namespace LooseAttribute

/-- The attribute without the blanks before it. -/
def body (attr : LooseAttribute) : Text := attr.name ++ (attr.assigned.map Assigned.source).getD []

def source (attr : LooseAttribute) : Text := attr.gap ++ attr.body

def value (attr : LooseAttribute) : Text := (attr.assigned.map Assigned.value).getD "true".toList

structure IsLoose (attr : LooseAttribute) : Prop where
  gap : attr.gap ≠ [] ∧ ∀ c ∈ attr.gap, Text.isBlank c
  name : attr.name ≠ [] ∧ ∀ c ∈ attr.name, isLooseNameChar c
  assigned : ∀ assigned ∈ attr.assigned, assigned.IsLoose

/-- Whether the attribute ends where this text follows: it goes on with no part of a name or of an
unquoted value, and a name is not assigned to. -/
def EndsBefore (attr : LooseAttribute) (rest : Text) : Prop :=
  match attr.assigned with
  | none => (∀ c ∈ rest.head?, isLooseNameChar c = false) ∧ (rest.dropWhile Text.isBlank).head? ≠
      some '='
  | some assigned => assigned.quote = none → ∀ c ∈ rest.head?, isLooseValueChar c = false

end LooseAttribute

variable {groups : List (TagPart × Span)} {goOn : Place TagPart → Option (Place TagPart)}
variable {last : Place TagPart} {before : Option Char} {rest : Text} {attr : LooseAttribute}
variable {attributes : List LooseAttribute}

theorem looseValue_eq : (looseValue : Pattern TagPart) =
    alt (quotedWith '"') (alt (quotedWith '\'') (plus (one isLooseValueChar))) := rfl

theorem run_quotedWith_of_ne {κ : Type} {groups : List (κ × Span)}
    {goOn : Place κ → Option (Place κ)} {quote : Char}
    {text : Text} (h : text.head? ≠ some quote) :
    (quotedWith quote).run ⟨between before text, groups⟩ goOn = none := by
  rw [quotedWith, run_append, run_append]
  refine run_one_of_head? fun c hc => beq_false_of_ne ?_
  rintro rfl
  exact h hc

/-- A value is taken as a whole, with its quotes. -/
theorem run_looseValue {assigned : Assigned} (h : assigned.IsLoose)
    (hrest : assigned.quote = none → ∀ c ∈ rest.head?, isLooseValueChar c = false)
    (hgo : goOn ⟨between (behind before assigned.raw) rest, groups⟩ = some last) :
    looseValue.run ⟨between before (assigned.raw ++ rest), groups⟩ goOn = some last := by
  rw [looseValue_eq, run_alt, run_alt]
  cases hquote : assigned.quote with
  | some quote =>
    obtain ⟨hkind, hvalue⟩ := h.quoted quote hquote
    have hraw : assigned.raw = quote :: (assigned.value ++ [quote]) := by rw [Assigned.raw, hquote]
    rw [hraw, ← List.cons_append, behind_concat] at hgo
    rw [hraw, List.cons_append, List.append_assoc, List.singleton_append]
    have hquoted := @run_quotedWith _ groups before _ _ _ _ _ hvalue hgo
    simp only [List.mem_cons, List.not_mem_nil, or_false] at hkind
    rcases hkind with rfl | rfl
    · rw [hquoted, Option.some_or]
    · rw [run_quotedWith_of_ne (by simp), hquoted]
      rfl
  | none =>
    obtain ⟨hne, hvalue⟩ := h.unquoted hquote
    have hraw : assigned.raw = assigned.value := by rw [Assigned.raw, hquote]
    rw [hraw] at hgo ⊢
    have hhead : ∀ {quote : Char}, isLooseValueChar quote = false → (assigned.value ++ rest).head? ≠
      some quote := by
      intro quote hquote heq
      obtain ⟨c, more, hcons⟩ := List.exists_cons_of_ne_nil hne
      rw [hcons] at heq hvalue
      cases heq
      rw [hvalue _ List.mem_cons_self] at hquote
      cases hquote
    rw [run_quotedWith_of_ne (hhead (by decide)), run_quotedWith_of_ne (hhead (by decide)),
      Option.none_or, Option.none_or]
    exact run_plusOne_of_some hne hvalue (hrest hquote) hgo

theorem Assigned.IsLoose.head? {assigned : Assigned} (h : assigned.IsLoose) (rest : Text) :
    ∀ c ∈ (assigned.raw ++ rest).head?, Text.isBlank c = false := by
  rw [raw]
  cases hquote : assigned.quote with
  | some quote =>
    obtain ⟨hkind, -⟩ := h.quoted quote hquote
    rintro c ⟨⟩
    exact (by decide : ∀ c ∈ ['"', '\''], Text.isBlank c = false) quote hkind
  | none =>
    obtain ⟨hne, hvalue⟩ := h.unquoted hquote
    obtain ⟨c, more, hcons⟩ := List.exists_cons_of_ne_nil hne
    rw [hcons] at hvalue ⊢
    rintro d ⟨⟩
    have hc := hvalue c List.mem_cons_self
    rw [isLooseValueChar, Bool.and_eq_true, Bool.not_eq_true'] at hc
    exact hc.1

/-- An assignment is taken with all its blanks, and its value is captured. -/
theorem run_assigned {assigned : Assigned} (h : assigned.IsLoose) (before : Option Char)
    (hrest : assigned.quote = none → ∀ c ∈ rest.head?, isLooseValueChar c = false)
    (groups : List (TagPart × Span)) : ∃ span : Span, span.text = assigned.raw ∧ ∀ goOn last,
      goOn ⟨between (behind before assigned.source) rest, (.value, span) :: groups⟩ = some last →
        (equalsSign ++ group TagPart.value looseValue).run
          ⟨between before (assigned.source ++ rest), groups⟩ goOn =
          some last := by
  let start := behind (some '=') assigned.right
  refine ⟨_, spanTo_text start (behind start assigned.raw) assigned.raw rest, fun goOn last hgo =>
    ?_⟩
  have hsource : assigned.source ++ rest = assigned.left ++
    '=' :: (assigned.right ++ (assigned.raw ++ rest)) := by
    simp [Assigned.source]
  rw [Assigned.source, behind_append, behind_cons, behind_append] at hgo
  rw [hsource, run_append, equalsSign, run_append, run_append, blank]
  refine run_starOne_of_some h.left (by rintro c ⟨⟩; decide) ?_
  rw [char, run_one_cons, if_pos (by decide)]
  refine run_starOne_of_some h.right (h.head? rest) ?_
  rw [run_group]
  exact run_looseValue h hrest hgo

/-- Groups that hold the parts of attributes only. -/
def AreParts (groups : List (TagPart × Span)) : Prop :=
  ∀ entry ∈ groups, entry.1 ∈ [TagPart.name, .value]

theorem AreParts.lookup {inside : List (TagPart × Span)} (h : AreParts inside)
    (groups : List (TagPart × Span)) : (inside ++ groups).lookup .tag = groups.lookup .tag := by
  rw [List.lookup_append, List.lookup_eq_none_iff.mpr, Option.none_or]
  intro entry hentry
  have hpart := h entry hentry
  simp only [List.mem_cons, List.not_mem_nil, or_false] at hpart
  rcases hpart with hpart | hpart <;> rw [hpart] <;> rfl

/-- The groups of one attribute: its name, and its value as it is written, if it has one. -/
structure AreGroupsOf (attr : LooseAttribute) (parts : List (TagPart × Span)) : Prop where
  kinds : AreParts parts
  name : (parts.lookup .name).map Span.text = some attr.name
  value : (parts.lookup .value).map Span.text = attr.assigned.map Assigned.raw

theorem run_looseAttribute (h : attr.IsLoose) (before : Option Char) (hrest : attr.EndsBefore rest)
    (groups : List (TagPart × Span)) : ∃ parts, AreGroupsOf attr parts ∧ ∀ goOn last,
      goOn ⟨between (behind before attr.body) rest, parts ++ groups⟩ = some last →
        looseAttribute.run ⟨between before (attr.body ++ rest), groups⟩ goOn = some last := by
  obtain ⟨hne, hname⟩ := h.name
  rw [LooseAttribute.EndsBefore] at hrest
  rw [LooseAttribute.body]
  have hassigned := h.assigned
  cases hwritten : attr.assigned with
  | none =>
    rw [hwritten] at hrest
    obtain ⟨hstop, hsign⟩ := hrest
    let span := (between before (attr.name ++ rest)).spanTo (between (behind before attr.name) rest)
    refine ⟨[(.name, span)], ⟨by simp [AreParts], congrArg some (spanTo_text _ _ attr.name rest), by
      rw [hwritten]; rfl⟩, fun goOn last hgo => ?_⟩
    rw [Option.map_none, Option.getD_none, List.append_nil] at hgo ⊢
    rw [looseAttribute, run_append, run_group]
    refine run_plusOne_of_some hne hname hstop ?_
    rw [run_maybe, run_append, run_equalsSign_of_ne hsign, Option.none_or]
    exact hgo
  | some assigned =>
    rw [hwritten] at hrest
    let left := assigned.source ++ rest
    let span := (between before (attr.name ++ left)).spanTo (between (behind before attr.name) left)
    obtain ⟨valueSpan, hvalue, hrun⟩ :=
      run_assigned (hassigned assigned hwritten) (behind before attr.name) hrest
        ((.name, span) :: groups)
    refine ⟨[(.value, valueSpan), (.name, span)],
      ⟨by simp [AreParts], congrArg some (spanTo_text _ _ attr.name left), by
      rw [hwritten]; exact congrArg some hvalue⟩, fun goOn last hgo => ?_⟩
    rw [Option.map_some, Option.getD_some] at hgo ⊢
    rw [behind_append] at hgo
    have hleft : ∀ c ∈ left.head?, isLooseNameChar c = false := by
      have hblank := (hassigned assigned hwritten).left
      have hsource : left = assigned.left ++ '=' :: (assigned.right ++ (assigned.raw ++ rest)) := by
        simp [left, Assigned.source]
      rw [hsource]
      cases hcons : assigned.left with
      | nil =>
        rintro c ⟨⟩
        decide
      | cons d more =>
        rw [hcons] at hblank
        rintro c ⟨⟩
        simp [isLooseNameChar, hblank d List.mem_cons_self]
    rw [List.append_assoc, looseAttribute, run_append, run_group]
    refine run_plusOne_of_some hne hname hleft ?_
    rw [run_maybe, Option.or_eq_some_iff]
    exact .inl (hrun goOn last hgo)

theorem begins_looseAttribute : Begins looseAttribute isLooseNameChar :=
  (Begins.group ((Begins.one _).append _) _).append _

theorem isLooseNameChar_of_isBlank {c : Char} (h : Text.isBlank c) : isLooseNameChar c = false := by
  simp [isLooseNameChar, h]

/-- A gap before a name, or nothing at all. -/
def IsGapped (rest : Text) : Prop :=
  (∀ c ∈ rest.head?, Text.isBlank c) ∧ (rest.dropWhile Text.isBlank).head? ≠ some '='

theorem isGapped_nil : IsGapped [] := ⟨by simp, by simp⟩

theorem IsGapped.endsBefore (h : IsGapped rest) (attr : LooseAttribute) : attr.EndsBefore rest := by
  rw [LooseAttribute.EndsBefore]
  cases attr.assigned with
  | none => exact ⟨fun c hc => isLooseNameChar_of_isBlank (h.1 c hc), h.2⟩
  | some assigned =>
    intro _ c hc
    simp [isLooseValueChar, h.1 c hc]

theorem LooseAttribute.IsLoose.head? (h : attr.IsLoose) (rest : Text) :
    ∀ c ∈ (attr.body ++ rest).head?, isLooseNameChar c := by
  obtain ⟨hne, hname⟩ := h.name
  obtain ⟨c, more, hcons⟩ := List.exists_cons_of_ne_nil hne
  rw [hcons] at hname
  rw [body, hcons]
  rintro d ⟨⟩
  exact hname _ List.mem_cons_self

theorem isBlank_of_isLooseNameChar {c : Char} (h : isLooseNameChar c) : Text.isBlank c = false := by
  rw [isLooseNameChar, Bool.and_eq_true, Bool.not_eq_true'] at h
  exact h.1

theorem LooseAttribute.IsLoose.isGapped (h : attr.IsLoose) (rest : Text) :
    IsGapped (attr.source ++ rest) := by
  obtain ⟨hne, hgap⟩ := h.gap
  obtain ⟨c, more, hcons⟩ := List.exists_cons_of_ne_nil hne
  have hname := h.head? rest
  rw [source, List.append_assoc]
  refine ⟨?_, ?_⟩
  · rw [hcons]
    rintro d ⟨⟩
    exact hgap c (hcons ▸ List.mem_cons_self)
  · rw [List.dropWhile_append_of_pos hgap]
    cases hbody : attr.body ++ rest with
    | nil => simp
    | cons d after =>
      have hd := hname d (by rw [hbody]; rfl)
      rw [List.dropWhile_cons_of_neg (by simp [isBlank_of_isLooseNameChar hd])]
      rintro ⟨⟩
      exact absurd hd (by decide)

def attributesSource (attributes : List LooseAttribute) : Text :=
  attributes.flatMap LooseAttribute.source

theorem run_gap_none {gap ending : Text} (hgap : ∀ c ∈ gap, Text.isBlank c)
    (hending : ∀ c ∈ ending.head?, Text.isBlank c = false ∧ isLooseNameChar c = false) :
    (plus blank ++ looseAttribute).run ⟨between before (gap ++ ending), groups⟩ goOn = none := by
  rw [run_append, blank]
  refine run_plusOne_none _ fun passed rest heq hpassed => begins_looseAttribute _ _ _ _ fun c hc =>
    ?_
  obtain ⟨left, rfl, hleft⟩ | ⟨more, rfl, rfl⟩ := List.append_eq_append_iff.mp heq
  · cases left with
    | nil => exact (hending c (by rwa [hleft])).2
    | cons d left =>
      have hd := (hending d (by rw [hleft]; rfl)).1
      rw [hpassed d (by simp)] at hd
      cases hd
  · cases more with
    | nil => exact (hending c hc).2
    | cons d more =>
      obtain rfl := Option.some.inj hc
      exact isLooseNameChar_of_isBlank (hgap d (by simp))

theorem endsBefore_attributesSource (h : ∀ other ∈ attributes, other.IsLoose)
    (hlast : ∀ last ∈ (attr :: attributes).getLast?, last.EndsBefore rest) :
    attr.EndsBefore (attributesSource attributes ++ rest) := by
  cases attributes with
  | nil => exact hlast attr rfl
  | cons other attributes =>
    have hother := (List.forall_mem_cons.mp h).1
    have hgapped := hother.isGapped (attributesSource attributes ++ rest)
    rw [← List.append_assoc] at hgapped
    exact hgapped.endsBefore attr

/-- The attributes of a tag are taken one after the other. -/
theorem run_attributesSource (h : ∀ attr ∈ attributes, attr.IsLoose) (before : Option Char)
    (hlast : ∀ attr ∈ attributes.getLast?, attr.EndsBefore rest)
    (hstop : ∀ before groups, (plus blank ++ looseAttribute).run ⟨between before rest, groups⟩
    some = none)
    (groups : List (TagPart × Span)) : ∃ inside, AreParts inside ∧
      ∀ (goOn : Place TagPart → Option (Place TagPart)) (last : Place TagPart),
      goOn ⟨between (behind before (attributesSource attributes)) rest, inside ++ groups⟩ =
      some last →
        (Pattern.star (plus blank ++ looseAttribute)).run
          ⟨between before (attributesSource attributes ++ rest), groups⟩ goOn = some last := by
  induction attributes generalizing before groups with
  | nil =>
    exact ⟨[], by
      simp [AreParts], fun goOn last hgo => (run_star_stop (hstop before groups)).trans hgo⟩
  | cons attr attributes ih =>
    obtain ⟨hattr, hattributes⟩ := List.forall_mem_cons.mp h
    let left := attributesSource attributes ++ rest
    have hends : attr.EndsBefore left := endsBefore_attributesSource hattributes hlast
    obtain ⟨parts, hparts, hrun⟩ := run_looseAttribute hattr (behind before attr.gap) hends groups
    obtain ⟨inside, hinside, hothers⟩ := ih hattributes (behind before attr.source)
      (fun other hother => hlast other (List.mem_getLast?_cons hother)) (parts ++ groups)
    refine ⟨inside ++ parts, List.forall_mem_append.mpr ⟨hinside, hparts.kinds⟩,
      fun goOn last hgo => ?_⟩
    have hsource : attributesSource (attr :: attributes) ++ rest = attr.gap ++
      (attr.body ++ left) := by
      simp [attributesSource, LooseAttribute.source, left]
    have hunit : (plus blank ++ looseAttribute).run
      ⟨between before (attr.gap ++ (attr.body ++ left)), groups⟩ some =
        some ⟨between (behind before attr.source) left, parts ++ groups⟩ := by
      rw [run_append, LooseAttribute.source, behind_append]
      refine run_plusOne_of_some hattr.gap.1 hattr.gap.2 (fun c hc => ?_) (hrun some _ rfl)
      exact isBlank_of_isLooseNameChar (hattr.head? left c hc)
    rw [hsource]
    refine run_star_step_of_some hunit ?_ (hothers goOn last ?_)
    · have hpos := List.length_pos_iff.mpr hattr.gap.1
      simp only [between_left, List.length_append]
      omega
    · rw [List.append_assoc, attributesSource, List.flatMap_cons, behind_append] at hgo
      exact hgo

def isTagName (name : Text) : Bool := name.head?.any isTagNameStart && name.all isTagNameChar

theorem exists_cons_of_isTagName {name : Text} (h : isTagName name) :
    ∃ c more, name = c :: more ∧ isTagNameStart c ∧ ∀ d ∈ name, isTagNameChar d := by
  cases name with
  | nil => cases h
  | cons c more =>
    rw [isTagName, Bool.and_eq_true, List.all_eq_true] at h
    exact ⟨c, more, rfl, h⟩

theorem isTagName_of_isSpelling {name : Text} (h : IsSpelling name) : isTagName name := by
  have hchars := h.isTagNameChar
  obtain ⟨c, more, rfl, hc, -⟩ := h.exists_cons
  rw [isTagName, Bool.and_eq_true, List.all_eq_true]
  exact ⟨hc, hchars⟩

theorem not_mem_of_isTagName {name : Text} (h : isTagName name) {mark : Char}
    (hmark : isTagNameChar mark = false) :
    mark ∉ name := by
  obtain ⟨c, more, -, -, hchars⟩ := exists_cons_of_isTagName h
  intro hmem
  rw [hchars mark hmem] at hmark
  cases hmark

/-- A tag name pattern takes a whole tag when that leads to a match. -/
theorem run_tagName {κ : Type} {tag : Text} {groups : List (κ × Span)}
    {goOn : Place κ → Option (Place κ)}
    {last : Place κ} (htag : isTagName tag) (hrest : ∀ c ∈ rest.head?, isTagNameChar c = false)
    (hgo : goOn ⟨between (behind before tag) rest, groups⟩ = some last) :
    tagName.run ⟨between before (tag ++ rest), groups⟩ goOn = some last := by
  obtain ⟨c, more, rfl, hc, hchars⟩ := exists_cons_of_isTagName htag
  simp only [tagName, run_append, List.cons_append, run_one_cons, hc, if_true]
  exact run_starOne_of_some (List.forall_mem_cons.mp hchars).2 hrest hgo

theorem begins_startTagPattern : Begins startTagPattern (· == '<') :=
  ((((Begins.one _).append _).append _).append _).append _ |>.append _

theorem matchAt_startTagPattern_of_head? {text : Text}
    (h : ∀ c ∈ text.head?, isTagNameStart c = false) :
    startTagPattern.matchAt (between before ('<' :: text)) = none := by
  have hrun : startTagPattern.run ⟨between before ('<' :: text), []⟩ some = none := by
    simp only [startTagPattern, run_append, run_group, char, run_one_cons, beq_self_eq_true,
      if_true, tagName]
    exact run_one_of_head? h
  rw [matchAt, hrun]
  rfl

theorem quiet_startTagPattern {mark : Char} {more : Text} (hmark : isTagNameStart mark = false)
    (hmore : '<' ∉ mark :: more) (before : Option Char) (rest : Text) :
    Quiet startTagPattern before ('<' :: mark :: more) rest := by
  refine ⟨matchAt_startTagPattern_of_head? ?_, quiet_of_not_mem begins_startTagPattern hmore _ _⟩
  rintro c ⟨⟩
  exact hmark

/-- A start tag with a gap before its end. -/
structure LooseTag where
  name : Text
  attributes : List LooseAttribute
  gap : Text
  closes : Bool

namespace LooseTag

def source (tag : LooseTag) : Text :=
  '<' :: (tag.name ++ (attributesSource tag.attributes ++ (tag.gap ++ tagEnd tag.closes)))

/-- What may be written as a start tag: an unquoted value does not run into the slash of its end. -/
structure IsLoose (tag : LooseTag) : Prop where
  name : isTagName tag.name
  attributes : ∀ attr ∈ tag.attributes, attr.IsLoose
  gap : ∀ c ∈ tag.gap, Text.isBlank c
  last : tag.gap = [] → tag.closes = true → ∀ attr ∈ tag.attributes.getLast?,
    ∀ assigned ∈ attr.assigned, assigned.quote ≠ none

variable {tag : LooseTag}

theorem head?_tagEnd (closes : Bool) (rest : Text) :
    ∀ c ∈ (tagEnd closes ++ rest).head?, Text.isBlank c = false ∧ isLooseNameChar c = false ∧
      c ≠ '=' := by
  cases closes <;> rintro c ⟨⟩ <;> decide

theorem dropWhile_tagEnd (closes : Bool) (rest : Text) :
    ((tagEnd closes ++ rest).dropWhile Text.isBlank).head? ≠ some '=' := by
  cases closes with
  | false =>
    rw [show tagEnd false ++ rest = '>' :: rest from rfl, List.dropWhile_cons_of_neg (by decide)]
    simp
  | true =>
    rw [show tagEnd true ++ rest = '/' :: '>' :: rest from rfl,
      List.dropWhile_cons_of_neg (by decide)]
    simp

/-- An attribute ends at the end of the tag unless an unquoted value runs into its slash. -/
theorem endsBefore_tagEnd (hblank : ∀ c ∈ tag.gap, Text.isBlank c)
    (hlast : tag.gap = [] → tag.closes = true →
    ∀ attr ∈ tag.attributes.getLast?, ∀ assigned ∈ attr.assigned, assigned.quote ≠
      none) (rest : Text) :
    ∀ attr ∈ tag.attributes.getLast?, attr.EndsBefore (tag.gap ++ (tagEnd tag.closes ++ rest)) := by
  intro attr hattr
  have hend := head?_tagEnd tag.closes rest
  have hsign := dropWhile_tagEnd tag.closes rest
  cases hgap : tag.gap with
  | cons c gap =>
    rw [hgap] at hblank
    refine IsGapped.endsBefore ⟨?_, ?_⟩ attr
    · rintro d ⟨⟩
      exact hblank c List.mem_cons_self
    · rwa [List.dropWhile_append_of_pos hblank]
  | nil =>
    rw [LooseAttribute.EndsBefore, List.nil_append]
    cases hassigned : attr.assigned with
    | none => exact ⟨fun c hc => (hend c hc).2.1, hsign⟩
    | some assigned =>
      intro hquote
      cases hcloses : tag.closes with
      | false =>
        rintro c ⟨⟩
        decide
      | true => exact absurd hquote (hlast hgap hcloses attr hattr assigned hassigned)

theorem run_ending {gap : Text} (hgap : ∀ c ∈ gap, Text.isBlank c) (closes : Bool)
    (before : Option Char) (rest : Text)
    (groups : List (TagPart × Span)) : ∃ span : Span, span.text = slash closes ∧
      (star blank ++ (group TagPart.closing (maybe (char '/')) ++ char '>')).run
        ⟨between before (gap ++ (tagEnd closes ++ rest)), groups⟩ some =
          some ⟨between (some '>') rest, (.closing, span) :: groups⟩ := by
  let start := behind before gap
  refine ⟨_, spanTo_text start (behind start (slash closes)) (slash closes) ('>' :: rest), ?_⟩
  rw [run_append, blank]
  refine run_starOne_of_some hgap (fun c hc => (head?_tagEnd closes rest c hc).1) ?_
  cases closes <;> simp [slash, tagEnd, char, start]

theorem head?_afterName {accepts : Char → Bool} (hblank : ∀ {c}, Text.isBlank c → accepts c = false)
    (hend : ∀ c ∈ ['/', '>'], accepts c = false)
    (hattributes : ∀ attr ∈ tag.attributes, attr.IsLoose)
    (hgap : ∀ c ∈ tag.gap, Text.isBlank c) (rest : Text) : ∀ c ∈ (attributesSource tag.attributes ++
      (tag.gap ++ (tagEnd tag.closes ++ rest))).head?, accepts c = false := by
  cases hall : tag.attributes with
  | cons attr attributes =>
    have hattr := hattributes attr (by rw [hall]; exact List.mem_cons_self)
    have hgapped :=
      (hattr.isGapped (attributesSource attributes ++ (tag.gap ++ (tagEnd tag.closes ++ rest)))).1
    rw [attributesSource, List.flatMap_cons, List.append_assoc]
    exact fun c hc => hblank (hgapped c hc)
  | nil =>
    cases hblanks : tag.gap with
    | cons c gap =>
      rintro d ⟨⟩
      exact hblank (hgap c (hblanks ▸ List.mem_cons_self))
    | nil =>
      rintro c hc
      cases hcloses : tag.closes <;>
      · rw [hcloses] at hc
        obtain rfl := Option.some.inj hc
        exact hend _ (by decide)

theorem isTagNameChar_of_isBlank {c : Char} (h : Text.isBlank c) : isTagNameChar c = false := by
  rw [← Bool.not_eq_true]
  intro hname
  rw [isBlank_of_isTagNameChar hname] at h
  cases h

theorem IsLoose.matchAt (h : tag.IsLoose) (before : Option Char) (rest : Text) : ∃ hit,
    startTagPattern.matchAt (between before (tag.source ++ rest)) = some hit ∧
      hit.stop = between (some '>') rest ∧ hit.text = tag.source ∧ hit.group .tag = tag.name ∧
      hit.group .attributes = attributesSource tag.attributes ∧ hit.group .closing =
        slash tag.closes := by
  let inside := attributesSource tag.attributes
  let ending := tag.gap ++ (tagEnd tag.closes ++ rest)
  have hsource : tag.source ++ rest = '<' :: (tag.name ++ (inside ++ ending)) := by
    simp [source, inside, ending]
  let start := between before ('<' :: (tag.name ++ (inside ++ ending)))
  let named := behind (some '<') tag.name
  let tagSpan :=
    (between (some '<') (tag.name ++ (inside ++ ending))).spanTo (between named (inside ++ ending))
  let attributesSpan :=
    (between named (inside ++ ending)).spanTo (between (behind named inside) ending)
  have hstop : ∀ before groups,
      (plus blank ++ looseAttribute).run ⟨between before ending, groups⟩ some = none := fun _ _ =>
    run_gap_none h.gap fun c hc => ⟨(head?_tagEnd _ _ c hc).1, (head?_tagEnd _ _ c hc).2.1⟩
  obtain ⟨parts, hparts, hattributes⟩ :=
    run_attributesSource h.attributes named (endsBefore_tagEnd h.gap h.last rest) hstop
      [(.tag, tagSpan)]
  obtain ⟨slashSpan, hslash, hclosing⟩ := run_ending h.gap tag.closes (behind named inside) rest
    ((.attributes, attributesSpan) :: (parts ++ [(.tag, tagSpan)]))
  let hit : Hit TagPart := ⟨start, between (some '>') rest,
    (.closing, slashSpan) :: (.attributes, attributesSpan) :: (parts ++ [(.tag, tagSpan)])⟩
  have hmatch : startTagPattern.run ⟨start, []⟩ some = some ⟨hit.stop, hit.groups⟩ := by
    have hstart : startTagPattern.run ⟨start, []⟩ some =
        tagName.run ⟨between (some '<') (tag.name ++ (inside ++ ending)), []⟩ fun last =>
          (group TagPart.attributes (star (plus blank ++ looseAttribute)) ++
            (star blank ++ (group TagPart.closing (maybe (char '/')) ++ char '>'))).run
              ⟨last.cursor, (.tag, (between (some '<') (tag.name ++ (inside ++ ending))).spanTo
                last.cursor) :: last.groups⟩ some := rfl
    rw [hstart]
    refine run_tagName h.name
      (head?_afterName isTagNameChar_of_isBlank (by decide) h.attributes h.gap rest) ?_
    rw [run_append, run_group]
    exact hattributes _ _ hclosing
  refine ⟨hit, by rw [hsource, Pattern.matchAt, hmatch]; rfl, rfl, ?_, ?_, ?_, hslash⟩
  · have hwhole := spanTo_text before (some '>') tag.source rest
    rw [hsource] at hwhole
    exact hwhole
  · have hlookup : hit.groups.lookup .tag = some tagSpan := hparts.lookup _
    rw [Hit.group, Hit.group?, hlookup]
    exact spanTo_text _ _ tag.name _
  · exact spanTo_text _ _ inside _

end LooseTag

end Visualforce.Markup
