import Visualforce.Proofs.Markup.LooseTag
import Visualforce.Proofs.Pattern.Leads
import Visualforce.Proofs.Text.Somewhere

/-! # The normal form of loosely written tags

In normal form the value of every attribute stands between quotes that it does not hold, with
entities for the marks that may not stand there. An ampersand is such a mark when no reference
begins with it, so a value without references is written in full.
-/
namespace Visualforce.Markup
open Pattern Cursor
open Text (somewhere)

variable {before : Option Char} {rest value : Text} {quote : Char}

/-- Whether a run of characters that a semicolon ends stands here. -/
def isClosedRun (starts accepts : Char → Bool) (text : Text) : Bool :=
  text.head?.any starts && (text.dropWhile accepts).head? == some ';'

/-- Whether this makes a reference of an ampersand before it. A number may have the digits of any
script. -/
def endsReference (text : Text) : Bool :=
  isClosedRun Char.isAlpha Char.isAlphanum text ||
    text.head? == some '#' && (isClosedRun Text.isDecimalDigit Text.isDecimalDigit text.tail ||
      text.tail.head? == some 'x' && isClosedRun isHexadecimal isHexadecimal text.tail.tail)

def beginsReference (text : Text) : Bool := text.head? == some '&' && endsReference text.tail

theorem isClosedRun_of_leads {κ : Type} {starts accepts : Char → Bool} {here there : Place κ}
    {text : Text}
    (hstarts : ∀ c, starts c → accepts c) (hstop : accepts ';' = false)
    (hrun : Leads (one starts ++ star (one accepts)) here there)
    (hend : there.cursor.rest = ';' :: text) :
    isClosedRun starts accepts here.cursor.rest := by
  obtain ⟨first, hfirst, hmore⟩ := leads_append.mp hrun
  obtain ⟨c, hrest, hc, -⟩ := hfirst.one_inv
  obtain ⟨passed, hpassed, hchars, -⟩ := hmore.manyOne_inv
  have hall : ∀ d ∈ c :: passed, accepts d := List.forall_mem_cons.mpr ⟨hstarts c hc, hchars⟩
  have hdrop : (c :: passed ++ ';' :: text).dropWhile accepts = ';' :: text := by
    rw [List.dropWhile_append_of_pos hall, List.dropWhile_cons_of_neg (by simp [hstop])]
  rw [hrest, hpassed, hend, ← List.cons_append, isClosedRun, hdrop]
  simpa using hc

theorem isClosedRun_entityName {κ : Type} {here there : Place κ} {text : Text}
    (h : Leads entityName here there)
    (hend : there.cursor.rest = ';' :: text) :
    isClosedRun Char.isAlpha Char.isAlphanum here.cursor.rest :=
  isClosedRun_of_leads (fun c hc => by simp [Char.isAlphanum, hc]) (by decide) h hend

theorem endsReference_of_leads {here there : Place Unit} (h : Leads afterAmpersand here there) :
    endsReference here.cursor.rest := by
  rw [afterAmpersand_eq] at h
  obtain ⟨middle, hbody, hsemicolon⟩ := leads_append.mp h
  have hend := hsemicolon.char_inv.1
  rw [endsReference]
  cases hbody with
  | left _ hdecimal =>
    obtain ⟨hash, hhash, hdigits⟩ := leads_append.mp hdecimal
    rw [hhash.char_inv.1]
    simp [isClosedRun_of_leads (fun _ h => h) (by decide) hdigits hend]
  | right _ hother =>
    cases hother with
    | left _ hhexadecimal =>
      obtain ⟨hash, hhash, hdigits⟩ := leads_append.mp hhexadecimal
      have hmark : here.cursor.rest = '#' :: 'x' :: hash.cursor.rest := hhash.exactly_inv.1
      rw [hmark]
      simp [isClosedRun_of_leads (fun _ h => h) (by decide) hdigits hend]
    | right _ hname =>
      rw [isClosedRun_entityName hname hend]
      rfl

theorem matchAt_namedReference_of_endsReference {text : Text} (h : endsReference text = false) :
    namedReference.matchAt (between before ('&' :: text)) = none := by
  rw [Option.eq_none_iff_forall_ne_some]
  intro hit hmatch
  obtain ⟨_, hfront, hend⟩ := leads_append.mp (leads_of_matchAt hmatch).2
  obtain ⟨mark, hmark, hgroup⟩ := leads_append.mp hfront
  obtain ⟨last, hname, rfl⟩ := leads_group.mp hgroup
  obtain ⟨-, htext⟩ := List.cons_eq_cons.mp hmark.char_inv.1
  have hrun := isClosedRun_entityName hname hend.char_inv.1
  rw [← htext] at hrun
  rw [endsReference, hrun] at h
  cases h

/-- An ampersand that begins no reference is taken alone. -/
theorem matchAt_looseAmpersand_of_endsReference {text : Text} (h : endsReference text = false) :
    ∃ hit, looseAmpersand.matchAt (between before ('&' :: text)) = some hit ∧
      hit.stop = between (some '&') text := by
  have hahead : (afterAmpersand.matchAt (between (some '&') text)).isNone = true := by
    rw [Option.isNone_iff_eq_none, Option.eq_none_iff_forall_ne_some]
    intro hit hmatch
    have hends := endsReference_of_leads (leads_of_matchAt hmatch).2
    rw [between_rest, h] at hends
    cases hends
  have hrun : looseAmpersand.run ⟨between before ('&' :: text), []⟩ some =
    some ⟨between (some '&') text, []⟩ := by
    rw [looseAmpersand, run_append, char, run_one_cons, if_pos (by decide), notAhead, run_guard,
      hahead]
    rfl
  exact ⟨_, by rw [matchAt, hrun]; rfl, rfl⟩

theorem isClosedRun_stop {starts accepts : Char → Bool} {front more : Text} {mark : Char}
    (haccepts : accepts mark = false)
    (hmark : ';' ≠ mark) (h : isClosedRun starts accepts (front ++ mark :: more)) (other : Text) :
    isClosedRun starts accepts (front ++ other) := by
  rw [isClosedRun, Bool.and_eq_true, beq_iff_eq] at h ⊢
  obtain ⟨hfirst, hdrop⟩ := h
  obtain ⟨hne, hother⟩ := Text.dropWhile_stop haccepts hmark hdrop
  cases front with
  | nil => exact absurd rfl hne
  | cons c front => exact ⟨hfirst, hother other⟩

/-- A reference does not reach over another ampersand or a quote. -/
theorem endsReference_stop {front more : Text} {mark : Char} (hmark : mark ∈ ['&', '"', '\''])
    (h : endsReference (front ++ mark :: more)) (other : Text) :
    endsReference (front ++ other) := by
  obtain ⟨hname, hdecimal, hhexadecimal, hsemicolon, hhash, hx⟩ :=
    (by decide : ∀ mark ∈ ['&', '"',
    '\''], mark.isAlphanum = false ∧ Text.isDecimalDigit mark = false ∧ isHexadecimal mark = false ∧
    ';' ≠ mark ∧
      mark ≠ '#' ∧ mark ≠ 'x') mark hmark
  simp only [endsReference, Bool.or_eq_true, Bool.and_eq_true, beq_iff_eq] at h ⊢
  rcases h with hrun | ⟨hfirst, hnumber⟩
  · exact .inl (isClosedRun_stop hname hsemicolon hrun other)
  · cases front with
    | nil => exact absurd (Option.some.inj hfirst) hhash
    | cons c front =>
      refine .inr ⟨hfirst, ?_⟩
      rcases hnumber with hrun | ⟨hsecond, hrun⟩
      · exact .inl (isClosedRun_stop hdecimal hsemicolon hrun other)
      · cases front with
        | nil => exact absurd (Option.some.inj hsecond) hx
        | cons d front => exact .inr ⟨hsecond, isClosedRun_stop hhexadecimal hsemicolon hrun other⟩

/-- The value with entities for the two marks that may not stand between quotes. -/
def escapeMarks (value : Text) : Text := value.flatMap fun c => if c == '<' ||
    c == '&' then escapeChar c else [c]

theorem escapeOpenings_cons (c : Char) (value : Text) :
    escapeOpenings (c :: value) = (if c == '<' then "&lt;".toList else [c]) ++
      escapeOpenings value :=
  List.flatMap_cons

theorem escapeMarks_cons (c : Char) (value : Text) : escapeMarks (c :: value) =
    (if c == '<' || c == '&' then escapeChar c else [c]) ++ escapeMarks value := List.flatMap_cons

theorem forall_mem_quotes {p : Char → Prop} (hdouble : p '"') (hsingle : p '\'') :
    ∀ quote ∈ ['"', '\''], p quote :=
  List.forall_mem_cons.mpr ⟨hdouble, List.forall_mem_singleton.mpr hsingle⟩

/-- Up to its first opening, or else up to its quote, a value stands as it is. -/
theorem exists_front_escaped (value : Text) (quote : Char) (rest : Text) : ∃ front tail mark more,
    value = front ++ tail ∧ escapeOpenings value ++ quote :: rest = front ++ mark :: more ∧
    mark ∈ ['&', quote] := by
  induction value with
  | nil => exact ⟨[], [], quote, rest, rfl, rfl, by simp⟩
  | cons c value ih =>
    rw [escapeOpenings_cons]
    split_ifs with hc
    · exact ⟨[], c :: value, '&', "lt;".toList ++ (escapeOpenings value ++ quote :: rest), rfl,
        rfl, by simp⟩
    · obtain ⟨front, tail, mark, more, rfl, heq, hmark⟩ := ih
      exact ⟨c :: front, tail, mark, more, rfl, by rw [List.append_assoc, heq]; rfl, hmark⟩

theorem endsReference_of_escaped (hquote : quote ∈ ['"', '\''])
    (h : endsReference (escapeOpenings value ++ quote :: rest)) : endsReference value := by
  obtain ⟨front, tail, mark, more, rfl, heq, hmark⟩ := exists_front_escaped value quote rest
  rw [heq] at h
  refine endsReference_stop (List.mem_cons.mpr ((List.mem_cons.mp hmark).imp_right fun hmem => ?_))
    h tail
  exact List.mem_singleton.mp hmem ▸ hquote

/-- References are looked for in a value after its openings have been escaped. Where there are none,
the ampersands are escaped as well. -/
theorem scans_escaped (hquote : quote ∈ ['"', '\'']) (h : somewhere beginsReference value = false)
    (before : Option Char) (rest : Text) :
    (∃ after, Scans namedReference (written numberedReference)
      (between before (escapeOpenings value ++ quote :: rest)) (escapeOpenings value)
        (between after (quote :: rest))) ∧
    ∃ after, Scans looseAmpersand (written fun _ => "&amp;".toList)
      (between before (escapeOpenings value ++ quote :: rest)) (escapeMarks value)
        (between after (quote :: rest)) := by
  induction value generalizing before with
  | nil => exact ⟨⟨before, .done _⟩, ⟨before, .done _⟩⟩
  | cons c value ih =>
    rw [somewhere, Bool.or_eq_false_iff] at h
    obtain ⟨hc, hvalue⟩ := h
    rw [escapeOpenings_cons, escapeMarks_cons, List.append_assoc]
    by_cases hopening : c = '<'
    · subst hopening
      have hkeeps :=
        (IsReference.entity "lt".toList
        (by decide : ("lt".toList, ['<']) ∈ Xml.predefined)).keepsReferences
      obtain ⟨middle, hnamed⟩ := hkeeps.named.scans before (escapeOpenings value ++ quote :: rest)
        trivial
      obtain ⟨middle', hloose⟩ := hkeeps.loose.scans before (escapeOpenings value ++ quote :: rest)
        trivial
      obtain ⟨⟨after, hnamed'⟩, -⟩ := ih hvalue middle
      obtain ⟨-, ⟨after', hloose'⟩⟩ := ih hvalue middle'
      exact ⟨⟨after, hnamed.append hnamed'⟩, ⟨after', hloose.append hloose'⟩⟩
    · obtain ⟨⟨after, hnamed⟩, ⟨after', hloose⟩⟩ := ih hvalue (some c)
      rw [if_neg (by simpa using hopening)]
      by_cases hampersand : c = '&'
      · subst hampersand
        have hends : endsReference (escapeOpenings value ++ quote :: rest) = false := by
          rw [← Bool.not_eq_true]
          intro hends
          have hbegins : beginsReference ('&' :: value) = true :=
            endsReference_of_escaped hquote hends
          rw [hc] at hbegins
          cases hbegins
        obtain ⟨hit, hmatch, hstop⟩ := @matchAt_looseAmpersand_of_endsReference before _ hends
        refine ⟨⟨after, .plain rfl (matchAt_namedReference_of_endsReference hends) hnamed⟩,
          ⟨after', ?_⟩⟩
        rw [← hstop] at hloose
        refine .matched hmatch ?_ hloose
        rw [hstop]
        simp
      · have hother : ∀ d ∈ (c :: (escapeOpenings value ++ quote :: rest)).head?, (d == '&') =
          false := by
          rintro d ⟨⟩
          exact beq_false_of_ne hampersand
        rw [if_neg (by simp [hopening, hampersand])]
        exact ⟨⟨after, .plain rfl (begins_namedReference.matchAt hother) hnamed⟩,
          ⟨after', .plain rfl (begins_looseAmpersand.matchAt hother) hloose⟩⟩

/-- A quote that the value does not hold, unless it holds both. -/
def quoteOf (value : Text) : Char := if value.contains '"' then '\'' else '"'

theorem quoteOf_mem (value : Text) : quoteOf value ∈ ['"', '\''] := by
  rw [quoteOf]
  split_ifs <;> simp

/-- The attribute after one space, with its value in quotes and encoded. -/
def Attribute.quoted (encode : Text → Text) (attr : Attribute) : Text :=
  ' ' :: (attr.name ++ '=' :: quoteOf attr.value :: (encode attr.value ++ [quoteOf attr.value]))

/-- The attribute that is written. -/
def LooseAttribute.attribute (attr : LooseAttribute) : Attribute := ⟨attr.name, attr.value⟩

/-- The value of a loosely written attribute does not hold both quotes. -/
theorem quoteOf_not_mem {attr : LooseAttribute} (h : attr.IsLoose) :
    quoteOf attr.value ∉ attr.value := by
  have hkinds : '"' ∉ attr.value ∨ '\'' ∉ attr.value := by
    rw [LooseAttribute.value]
    cases hassigned : attr.assigned with
    | none => exact .inl (by decide)
    | some assigned =>
      have hloose := h.assigned assigned hassigned
      change '"' ∉ assigned.value ∨ '\'' ∉ assigned.value
      cases hquote : assigned.quote with
      | none => exact .inl fun hmem => absurd ((hloose.unquoted hquote).2 _ hmem) (by decide)
      | some quote =>
        obtain ⟨hkind, hfree⟩ := hloose.quoted quote hquote
        simp only [List.mem_cons, List.not_mem_nil, or_false] at hkind
        rcases hkind with rfl | rfl
        · exact .inl hfree
        · exact .inr hfree
  rw [quoteOf]
  split_ifs with hcontains
  · exact hkinds.resolve_left (not_not.mpr (List.contains_iff_mem.mp hcontains))
  · rwa [List.contains_iff_mem] at hcontains

theorem writeAttribute_eq (name value : Text) :
    writeAttribute name value = (Attribute.mk name value).quoted escapeOpenings := by
  simp [writeAttribute, Attribute.quoted, quoteOf]

theorem bareValue_raw {assigned : Assigned} (h : assigned.IsLoose) :
    bareValue assigned.raw = assigned.value := by
  rw [bareValue, Assigned.raw]
  cases hquote : assigned.quote with
  | some quote =>
    have hkind : (quote == '"' || quote == '\'') = true := by simpa using (h.quoted quote hquote).1
    simp [hkind]
  | none =>
    obtain ⟨hne, hvalue⟩ := h.unquoted hquote
    obtain ⟨c, more, hcons⟩ := List.exists_cons_of_ne_nil hne
    rw [hcons] at hvalue ⊢
    have hc := hvalue c List.mem_cons_self
    have hkind : (c == '"' || c == '\'') = false := by
      rw [← Bool.not_eq_true]
      intro hkind
      rw [Bool.or_eq_true, beq_iff_eq, beq_iff_eq] at hkind
      rcases hkind with rfl | rfl
      · exact absurd hc (by decide)
      · exact absurd hc (by decide)
    simp [hkind]

variable {attr : LooseAttribute} {attributes : List LooseAttribute} {tag : LooseTag}

/-- However it is written, the normal form of an attribute is made of its name and its value. -/
theorem normalAttribute?_of_groups (h : attr.IsLoose) {hit : Hit TagPart}
    (hgroups : AreGroupsOf attr hit.groups) :
    normalAttribute? true hit = some (attr.attribute.quoted escapeOpenings) := by
  have hname : hit.group .name = attr.name := by
    rw [Hit.group, Hit.group?, hgroups.name]
    rfl
  have hvalue : hit.group? .value = attr.assigned.map Assigned.raw := hgroups.value
  rw [normalAttribute?, hvalue, hname, LooseAttribute.attribute, ← writeAttribute_eq,
    LooseAttribute.value]
  cases hassigned : attr.assigned with
  | none => rfl
  | some assigned =>
    simp only [Option.map_some, Option.getD_some]
    rw [bareValue_raw (h.assigned assigned hassigned)]

theorem yields_looseAttribute (h : attr.IsLoose) :
    Yields looseAttribute (seen (normalAttribute? true)) IsGapped
    attr.source [some (attr.attribute.quoted escapeOpenings)] := by
  refine ⟨fun before rest hrest => ?_, fun rest _ => h.isGapped rest⟩
  have hquiet : Quiet looseAttribute before attr.gap (attr.body ++ rest) :=
    begins_looseAttribute.quiet (fun c hc => isLooseNameChar_of_isBlank (h.gap.2 c hc)) before _
  let start := between (behind before attr.gap) (attr.body ++ rest)
  let stop := between (behind (behind before attr.gap) attr.body) rest
  obtain ⟨parts, hparts, hrun⟩ :=
    run_looseAttribute h (behind before attr.gap) (hrest.endsBefore attr) []
  let hit : Hit TagPart := ⟨start, stop, parts ++ []⟩
  have hmatch : looseAttribute.matchAt start = some hit := by
    rw [matchAt, hrun some _ rfl]
    rfl
  have hlt : hit.stop.left < start.left := by
    have hpos := List.length_pos_iff.mpr h.name.1
    simp only [hit, start, stop, between_left, LooseAttribute.body, List.length_append]
    omega
  have hview : normalAttribute? true hit = some (attr.attribute.quoted escapeOpenings) :=
    normalAttribute?_of_groups h (by simpa [hit] using hparts)
  refine ⟨stop.before, ?_⟩
  rw [LooseAttribute.source, List.append_assoc, ← hview]
  exact (hquiet.scans_seen _).append (.single _ hmatch hlt)

theorem mapM_of_map_eq {α β : Type} {f : α → Option β} {values : List α} {results : List β}
    (h : values.map f = results.map some) : values.mapM f = some results := by
  induction values generalizing results with
  | nil =>
    cases results with
    | nil => rfl
    | cons result results => cases h
  | cons a values ih =>
    cases results with
    | nil => cases h
    | cons result results =>
      obtain ⟨hfirst, hrest⟩ := List.cons_eq_cons.mp h
      rw [List.mapM_cons, hfirst, ih hrest]
      rfl

/-- The attributes found in a tag are those that it was recognised with. -/
theorem normalAttributes_loose (h : ∀ attr ∈ attributes, attr.IsLoose) :
    (looseAttribute.hits (attributesSource attributes)).mapM (normalAttribute? true) =
      some (attributes.map (·.attribute.quoted escapeOpenings)) := by
  have hyields := Yields.flatMap fun attr hattr => yields_looseAttribute (h attr hattr)
  refine mapM_of_map_eq ((hyields.hits isGapped_nil).trans ?_)
  rw [← List.map_eq_flatMap, List.map_map]
  rfl

namespace LooseTag

/-- The tag in normal form. A tag without attributes keeps the blanks before its end. -/
def normal (encode : Text → Text) (tag : LooseTag) : Text :=
  '<' :: (tag.name ++ (tag.attributes.flatMap (·.attribute.quoted encode) ++
    ((if tag.attributes.isEmpty then tag.gap else []) ++ tagEnd tag.closes)))

end LooseTag

theorem isBlankText_attributesSource (h : ∀ attr ∈ attributes, attr.IsLoose) :
    Text.isBlankText (attributesSource attributes) = attributes.isEmpty := by
  cases attributes with
  | nil => rfl
  | cons attr attributes =>
    obtain ⟨hne, hname⟩ := (h attr List.mem_cons_self).name
    obtain ⟨c, more, hcons⟩ := List.exists_cons_of_ne_nil hne
    have hc := isBlank_of_isLooseNameChar (hname c (hcons ▸ List.mem_cons_self))
    rw [Text.isBlankText, List.isEmpty_cons, List.all_eq_false]
    refine ⟨c, ?_, by simp [hc]⟩
    simp [attributesSource, LooseAttribute.source, LooseAttribute.body, hcons]

/-- Attributes that are written where those without a value are not allowed are written alike where
they are. -/
theorem mapM_normalAttribute? {allow : Bool} {hits : List (Hit TagPart)} {parts : List Text}
    (h : hits.mapM (normalAttribute? allow) = some parts) : hits.mapM (normalAttribute? true) =
    some parts := by
  have hone : ∀ hit text, normalAttribute? allow hit = some text → normalAttribute? true hit =
    some text := by
    intro hit text hnormal
    rw [normalAttribute?] at hnormal ⊢
    cases hvalue : hit.group? .value with
    | some raw => rwa [hvalue] at hnormal
    | none =>
      rw [hvalue] at hnormal
      cases allow with
      | true => exact hnormal
      | false => cases hnormal
  induction hits generalizing parts with
  | nil => exact h
  | cons hit hits ih =>
    rw [List.mapM_cons] at h ⊢
    cases hfirst : normalAttribute? allow hit with
    | none => simp [hfirst] at h
    | some first =>
      cases hrest : hits.mapM (normalAttribute? allow) with
      | none => simp [hfirst, hrest] at h
      | some others =>
        rw [hfirst, hrest] at h
        rw [hone _ _ hfirst, ih hrest]
        exact h

theorem yields_normalStartTag (allow : Bool) (h : tag.IsLoose) :
    Yields startTagPattern (written (normalStartTag allow)) anything tag.source
      (if ((looseAttribute.hits (attributesSource tag.attributes)).mapM
        (normalAttribute? allow)).isSome then
        tag.normal escapeOpenings else tag.source) := by
  refine .of_match (fun _ _ => trivial) (by simp [LooseTag.source]) fun before rest _ => ?_
  obtain ⟨hit, hmatch, hstop, htext, htag, hattributes, hclosing⟩ := h.matchAt before rest
  refine ⟨hit, some '>', hmatch, hstop, ?_⟩
  change normalStartTag allow hit = _
  rw [normalStartTag, hattributes, isBlankText_attributesSource h.attributes]
  cases hempty : tag.attributes with
  | nil =>
    rw [List.isEmpty_nil, if_pos rfl, htext, LooseTag.source, LooseTag.normal, hempty]
    exact (ite_self _).symm
  | cons attr attributes =>
    rw [List.isEmpty_cons, if_neg Bool.false_ne_true, ← hempty]
    cases hparts : (looseAttribute.hits (attributesSource tag.attributes)).mapM
      (normalAttribute? allow) with
    | none => exact htext
    | some parts =>
      have hall := mapM_normalAttribute? hparts
      rw [normalAttributes_loose h.attributes] at hall
      obtain rfl := Option.some.inj hall
      simp only [htag, hclosing]
      simp [LooseTag.normal, hempty, tagEnd, List.flatMap_def]

theorem yields_looseTag (h : tag.IsLoose) :
    Yields startTagPattern (written (normalStartTag true)) anything tag.source
      (tag.normal escapeOpenings) := by
  have hyields := yields_normalStartTag true h
  rwa [normalAttributes_loose h.attributes, Option.isSome_some, if_pos rfl] at hyields

/-- A text in which references are kept and the other ampersands become those of the second text. -/
structure EscapesTo (text result : Text) : Prop where
  named : Yields namedReference (written numberedReference) anything text text
  loose : Yields looseAmpersand (written fun _ => "&amp;".toList) anything text result

namespace EscapesTo

variable {first second text result : Text}

theorem append {left right : Text} (hfirst : EscapesTo first left)
    (hsecond : EscapesTo second right) :
    EscapesTo (first ++ second) (left ++ right) :=
  ⟨hfirst.named.append hsecond.named, hfirst.loose.append hsecond.loose⟩

theorem flatMap {β : Type} {write result : β → Text} {parts : List β}
    (h : ∀ part ∈ parts, EscapesTo (write part) (result part)) :
    EscapesTo (parts.flatMap write) (parts.flatMap result) :=
  ⟨.flatMap fun part hpart => (h part hpart).named, .flatMap fun part hpart => (h part hpart).loose⟩

theorem of_not_mem (h : '&' ∉ text) : EscapesTo text text :=
  ⟨(KeepsReferences.of_not_mem h).named, (KeepsReferences.of_not_mem h).loose⟩

end EscapesTo

theorem escapesTo_quoted {attr : Attribute} (hname : '&' ∉ attr.name)
    (hvalue : somewhere beginsReference attr.value = false) :
    EscapesTo (attr.quoted escapeOpenings) (attr.quoted escapeMarks) := by
  let mark := quoteOf attr.value
  have hmark : '&' ≠ mark := forall_mem_quotes (by decide) (by decide) mark (quoteOf_mem attr.value)
  have hfront : EscapesTo (' ' :: (attr.name ++ ['=', mark])) (' ' :: (attr.name ++ ['=', mark])) :=
    .of_not_mem (by simp [hname, hmark])
  have hlast : EscapesTo [mark] [mark] := .of_not_mem (by simpa using hmark)
  have hquoted : EscapesTo (escapeOpenings attr.value ++ [mark])
    (escapeMarks attr.value ++ [mark]) := by
    constructor
    · refine ⟨fun before rest _ => ?_, fun _ _ => trivial⟩
      obtain ⟨⟨middle, hscan⟩, -⟩ := scans_escaped (quoteOf_mem attr.value) hvalue before rest
      obtain ⟨after, hend⟩ := hlast.named.scans middle rest trivial
      rw [List.append_assoc]
      exact ⟨after, hscan.append hend⟩
    · refine ⟨fun before rest _ => ?_, fun _ _ => trivial⟩
      obtain ⟨-, middle, hscan⟩ := scans_escaped (quoteOf_mem attr.value) hvalue before rest
      obtain ⟨after, hend⟩ := hlast.loose.scans middle rest trivial
      rw [List.append_assoc]
      exact ⟨after, hscan.append hend⟩
  have hsource : ∀ encode : Text → Text, attr.quoted encode =
      ' ' :: (attr.name ++ ['=', mark]) ++ (encode attr.value ++ [mark]) := fun encode => by
    simp [Attribute.quoted, mark]
  rw [hsource, hsource]
  exact hfront.append hquoted

/-- Behind a loosely written tag with values that hold no references, a text that stands in normal
form is left as it is. -/
theorem normalize_loose (h : tag.IsLoose) (hnames : ∀ attr ∈ tag.attributes, '&' ∉ attr.name)
    (hvalues : ∀ attr ∈ tag.attributes, somewhere beginsReference attr.value = false)
    {ending : Text}
    (hending : Yields startTagPattern (written (normalStartTag true)) anything ending ending)
    (hmark : '&' ∉ ending) : normalize true (tag.source ++ ending) = tag.normal escapeMarks ++
    ending := by
  have htags := ((yields_looseTag h).append hending).replace trivial
  have hname : '&' ∉ '<' :: tag.name := by
    rw [List.mem_cons, not_or]
    exact ⟨by decide, not_mem_of_isTagName h.name (by decide)⟩
  have hgap : '&' ∉ (if tag.attributes.isEmpty then tag.gap else []) ++ tagEnd tag.closes := by
    have hblank : '&' ∉ tag.gap := fun hmem => absurd (h.gap _ hmem) (by decide)
    rw [List.mem_append, not_or]
    refine ⟨?_, by cases tag.closes <;> decide⟩
    split_ifs
    · exact hblank
    · exact List.not_mem_nil
  have hattributes : EscapesTo (tag.attributes.flatMap (·.attribute.quoted escapeOpenings))
      (tag.attributes.flatMap (·.attribute.quoted escapeMarks)) :=
    .flatMap fun attr hattr => escapesTo_quoted (hnames attr hattr) (hvalues attr hattr)
  have hescapes : EscapesTo (tag.normal escapeOpenings ++ ending)
    (tag.normal escapeMarks ++ ending) := by
    have hall := ((EscapesTo.of_not_mem hname).append
      (hattributes.append (.of_not_mem hgap))).append (.of_not_mem hmark)
    exact hall
  rw [normalize, htags, hescapes.named.replace trivial, hescapes.loose.replace trivial]

end Visualforce.Markup
