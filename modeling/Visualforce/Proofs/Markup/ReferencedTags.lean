import Mathlib.Data.List.Forall2
import Visualforce.Proofs.Markup.NormalForm
import Visualforce.Proofs.Markup.Source
import Visualforce.Proofs.Xml.AcceptedElement

/-! # Tags with other references

Characters that are named become numbers and loose ampersands are escaped, in one pass over a text
each. Such a pass changes what may make a reference and nothing else. The tags that the text writes
stay, but for the values of their attributes.
-/
namespace Visualforce.Markup
open Pattern Cursor

/-- Two texts that differ in what may follow their ampersands in references. -/
inductive SameBesidesReferences : Text → Text → Prop where
  | nil : SameBesidesReferences [] []
  | char (c : Char) {text other : Text} (h : SameBesidesReferences text other) :
      SameBesidesReferences (c :: text) (c :: other)
  | reference {first second text other : Text} (hfirst : ∀ c ∈ first, isReferenceChar c)
      (hsecond : ∀ c ∈ second, isReferenceChar c) (h : SameBesidesReferences text other) :
      SameBesidesReferences ('&' :: (first ++ text)) ('&' :: (second ++ other))

variable {text other front rest : Text} {c : Char} {tag : LooseTag} {tags : List LooseTag}

namespace SameBesidesReferences

theorem refl (text : Text) : SameBesidesReferences text text := by
  induction text with
  | nil => exact .nil
  | cons c _ ih => exact .char c ih

theorem symm (h : SameBesidesReferences text other) : SameBesidesReferences other text := by
  induction h with
  | nil => exact .nil
  | char c _ ih => exact .char c ih
  | reference hfirst hsecond _ ih => exact .reference hsecond hfirst ih

theorem append (rest : Text) (h : SameBesidesReferences text other) :
    SameBesidesReferences (text ++ rest) (other ++ rest) := by
  induction h with
  | nil => exact .refl rest
  | char c _ ih => exact .char c ih
  | reference hfirst hsecond _ ih =>
    rw [List.cons_append, List.cons_append, List.append_assoc, List.append_assoc]
    exact .reference hfirst hsecond ih

theorem chars (front : Text) (h : SameBesidesReferences text other) :
    SameBesidesReferences (front ++ text) (front ++ other) := by
  induction front with
  | nil => exact h
  | cons c front ih => exact .char c ih

/-- What is no ampersand stays in front. -/
theorem exists_of_cons (hc : c ≠ '&') (h : SameBesidesReferences (c :: text) other) :
    ∃ left, other = c :: left ∧ SameBesidesReferences text left := by
  cases h with
  | char _ h => exact ⟨_, rfl, h⟩
  | reference _ _ _ => exact absurd rfl hc

theorem exists_of_append (hfront : '&' ∉ front) (h : SameBesidesReferences (front ++ text) other) :
    ∃ left, other = front ++ left ∧ SameBesidesReferences text left := by
  induction front generalizing other with
  | nil => exact ⟨other, rfl, h⟩
  | cons c front ih =>
    obtain ⟨hc, hfront⟩ := List.ne_and_not_mem_of_not_mem_cons hfront
    rw [List.cons_append] at h
    obtain ⟨_, rfl, hmore⟩ := h.exists_of_cons hc.symm
    obtain ⟨left, rfl, hleft⟩ := ih hfront hmore
    exact ⟨left, rfl, hleft⟩

theorem isPrefix {piece : Text} (hpiece : '&' ∉ piece) (h : SameBesidesReferences text other)
    (hbegins : piece <+: text) :
    piece <+: other := by
  obtain ⟨left, rfl⟩ := hbegins
  obtain ⟨left, rfl, -⟩ := h.exists_of_append hpiece
  exact List.prefix_append _ _

/-- No reference reaches over a character that none is made of. -/
theorem exists_of_append_cons (hc : isReferenceChar c = false)
    (h : SameBesidesReferences (front ++ c :: text) other) :
    ∃ first left, other = first ++ c :: left ∧ SameBesidesReferences front first ∧
      SameBesidesReferences text left := by
  generalize hwhole : front ++ c :: text = whole at h
  induction h generalizing front with
  | nil => simp at hwhole
  | @char d whole other h ih =>
    cases front with
    | nil =>
      obtain ⟨rfl, rfl⟩ := List.cons_eq_cons.mp hwhole
      exact ⟨[], other, rfl, .nil, h⟩
    | cons _ front =>
      obtain ⟨rfl, hmore⟩ := List.cons_eq_cons.mp hwhole
      obtain ⟨first, left, rfl, hfront, hleft⟩ := ih hmore
      exact ⟨_ :: first, left, rfl, .char _ hfront, hleft⟩
  | @reference first second whole other hfirst hsecond h ih =>
    cases front with
    | nil =>
      obtain ⟨rfl, -⟩ := List.cons_eq_cons.mp hwhole
      exact absurd hc (by decide)
    | cons _ front =>
      obtain ⟨rfl, hmore⟩ := List.cons_eq_cons.mp hwhole
      have hnot : c ∉ first := fun hmem => by
        rw [hfirst c hmem] at hc
        cases hc
      obtain ⟨inner, rfl, rfl⟩ := Text.exists_of_append_eq_cons hnot hmore.symm
      obtain ⟨kept, left, rfl, hkept, hleft⟩ := ih rfl
      exact ⟨'&' :: (second ++ kept), left, by simp, .reference hfirst hsecond hkept, hleft⟩

theorem exists_of_append_of_head? (hrest : ∀ c ∈ rest.head?, isReferenceChar c = false)
    (h : SameBesidesReferences (front ++ rest) other) :
    ∃ first left, other = first ++ left ∧ SameBesidesReferences front first ∧
      SameBesidesReferences rest left := by
  cases rest with
  | nil =>
    rw [List.append_nil] at h
    exact ⟨other, [], (List.append_nil other).symm, h, .nil⟩
  | cons c rest =>
    obtain ⟨first, left, rfl, hfirst, hleft⟩ := h.exists_of_append_cons (hrest c rfl)
    exact ⟨first, c :: left, rfl, hfirst, .char c hleft⟩

/-- A class that holds all that references are made of holds a text as well as the other. -/
theorem forall_mem {property : Char → Prop} (hproperty : ∀ c, isReferenceChar c → property c)
    (h : SameBesidesReferences text other) (hall : ∀ c ∈ text, property c) :
    ∀ c ∈ other, property c := by
  induction h with
  | nil => exact hall
  | char c _ ih =>
    obtain ⟨hc, htext⟩ := List.forall_mem_cons.mp hall
    exact List.forall_mem_cons.mpr ⟨hc, ih htext⟩
  | reference _ hsecond _ ih =>
    obtain ⟨hc, htext⟩ := List.forall_mem_cons.mp hall
    refine List.forall_mem_cons.mpr
      ⟨hc, List.forall_mem_append.mpr ⟨fun d hd => hproperty d (hsecond d hd), ih ?_⟩⟩
    exact (List.forall_mem_append.mp htext).2

theorem ne_nil (h : SameBesidesReferences text other) (hne : text ≠ []) : other ≠ [] := by
  cases h with
  | nil => exact hne
  | char _ _ => exact List.cons_ne_nil _ _
  | reference _ _ _ => exact List.cons_ne_nil _ _

theorem holds {cover : Cover} (h : SameBesidesReferences text other) (hcover : cover.Holds text) :
    cover.Holds other := by
  have hfree : '&' ∉ cover.mark := by cases cover <;> decide
  have hmark : ∀ c ∈ cover.mark.head?, isReferenceChar c = false := by
    cases cover <;> (rintro c ⟨⟩; decide)
  induction h with
  | nil => exact hcover
  | char c h ih =>
    obtain ⟨hbegins, htext⟩ := Cover.holds_cons.mp hcover
    refine Cover.holds_cons.mpr ⟨fun hother => hbegins ?_, ih htext⟩
    exact (SameBesidesReferences.char c (h.append cover.closing)).symm.isPrefix hfree hother
  | @reference first second text other hfirst hsecond h ih => 
    have hother := ih (hcover.of_suffix ⟨'&' :: first, rfl⟩)
    have hpassed : ∀ c ∈ cover.mark.head?, c ∉ '&' :: second := by
      intro c hc hmem
      have hreference :=
        (List.forall_mem_cons.mpr ⟨by decide, hsecond⟩ : ∀ c ∈ '&' :: second, isReferenceChar c)
        c hmem
      rw [hmark c hc] at hreference
      cases hreference
    exact hother.append_of_not_mem hpassed

end SameBesidesReferences

/-- A match is an ampersand with what may follow it in a reference, and so is what is written for
it. -/
structure RewritesReference (write : Hit Unit → Text) (here : Cursor) (hit : Hit Unit) : Prop where
  found : ∃ first, (∀ c ∈ first, isReferenceChar c) ∧ here.rest = '&' :: (first ++ hit.stop.rest)
  written : ∃ second, (∀ c ∈ second, isReferenceChar c) ∧ write hit = '&' :: second

theorem sameBesidesReferences_replace {pattern : Pattern Unit} {write : Hit Unit → Text}
    (h : ∀ ⦃here hit⦄, pattern.matchAt here = some hit → RewritesReference write here hit)
    (text : Text) :
    SameBesidesReferences text (pattern.replace write text) := by
  have hsame : ∀ {here there : Cursor} {result : Text}, Scans pattern (Pattern.written write)
    here result there →
      there.rest = [] → SameBesidesReferences here.rest result := by
    intro here there result hscan hend
    induction hscan with
    | done here =>
      rw [hend]
      exact .nil
    | plain hnext _ _ ih =>
      rw [rest_of_next? hnext]
      exact .char _ (ih hend)
    | matched hmatch _ _ ih =>
      obtain ⟨⟨first, hfirst, hrest⟩, ⟨second, hsecond, hwritten⟩⟩ := h hmatch
      rw [hrest, Pattern.written, hwritten]
      exact .reference hfirst hsecond (ih hend)
  have hlt : ∀ ⦃here hit⦄, pattern.matchAt here = some hit → hit.stop.left < here.left := by
    intro here hit hmatch
    obtain ⟨first, -, hrest⟩ := (h hmatch).found
    rw [here.left_eq, hit.stop.left_eq, hrest, List.length_cons, List.length_append]
    omega
  obtain ⟨result, before, hscan⟩ := exists_scans hlt (Pattern.written write) (between none text)
  rw [hscan.replace]
  exact hsame hscan rfl

theorem isReferenceChar_of_isAlphanum (h : c.isAlphanum) :
    isReferenceChar c := by simp [isReferenceChar, h]

theorem rewritesReference_named {here : Cursor} {hit : Hit Unit}
    (h : namedReference.matchAt here = some hit) :
    RewritesReference numberedReference here hit := by
  obtain ⟨hstart, hleads⟩ := leads_of_matchAt h
  obtain ⟨_, hfront, hend⟩ := leads_append.mp hleads
  obtain ⟨mark, hmark, hgroup⟩ := leads_append.mp hfront
  obtain ⟨last, hname, rfl⟩ := leads_group.mp hgroup
  obtain ⟨first, hfirst, hmore⟩ := leads_append.mp hname
  obtain ⟨c, hc, halpha, -⟩ := hfirst.one_inv
  obtain ⟨name, hname, halphanum, -⟩ := hmore.manyOne_inv
  have hpassed : ∀ d ∈ c :: (name ++ [';']), isReferenceChar d := by
    refine List.forall_mem_cons.mpr
      ⟨isReferenceChar_of_isAlphanum (by simp [Char.isAlphanum, halpha]), ?_⟩
    refine List.forall_mem_append.mpr
      ⟨fun d hd => isReferenceChar_of_isAlphanum (halphanum d hd), by decide⟩
  have hrest : here.rest = '&' :: (c :: (name ++ [';']) ++ hit.stop.rest) := by
    rw [hmark.char_inv.1, hc, hname, hend.char_inv.1]
    simp
  refine ⟨⟨_, hpassed, hrest⟩, ?_⟩
  have htext : hit.text = '&' :: c :: (name ++ [';']) := by
    rw [Hit.text, hstart]
    exact spanTo_text_of_rest hrest
  rw [numberedReference]
  split_ifs
  · exact ⟨_, hpassed, htext⟩
  · cases codePoint? (hit.group ()) with
    | none => exact ⟨_, hpassed, htext⟩
    | some n =>
      refine ⟨'#' :: (n.repr.toList ++ [';']),
        List.forall_mem_cons.mpr ⟨by decide, List.forall_mem_append.mpr ⟨?_, by decide⟩⟩, by simp⟩
      intro d hd
      have hdigit : d.isDigit :=
        Nat.isDigit_of_mem_toDigits (by decide) (by decide) (Nat.toList_repr ▸ hd)
      exact isReferenceChar_of_isAlphanum (by simp [Char.isAlphanum, hdigit])

theorem rewritesReference_loose {here : Cursor} {hit : Hit Unit}
    (h : looseAmpersand.matchAt here = some hit) :
    RewritesReference (fun _ => "&amp;".toList) here hit := by
  obtain ⟨_, hmark, hahead⟩ := leads_append.mp (leads_of_matchAt h).2
  cases hahead with
  | guard _ =>
    exact ⟨⟨[], List.forall_mem_nil _, hmark.char_inv.1⟩,
      ⟨"amp;".toList, by decide, rfl⟩⟩

theorem isLooseValueChar_of_isReferenceChar (h : isReferenceChar c) : isLooseValueChar c := by
  have hlt : c.toNat < 128 := by
    rw [isReferenceChar, Bool.or_eq_true, List.contains_iff_mem] at h
    rcases h with h | h
    · exact Text.toNat_lt_of_isAlphanum h
    · exact (by decide : ∀ c ∈ "&#;".toList, c.toNat < 128) c h
  exact Text.forall_ascii (fun c => isReferenceChar c → isLooseValueChar c) (by decide +kernel)
    hlt h

namespace Assigned

variable {assigned : Assigned}

theorem exists_raw_of_same (hassigned : assigned.IsLoose)
    (hends : assigned.quote = none → ∀ c ∈ rest.head?, isLooseValueChar c = false)
    (h : SameBesidesReferences (assigned.raw ++ rest) other) : ∃ value left,
      ({ assigned with value } : Assigned).IsLoose ∧
      other = ({ assigned with value } : Assigned).raw ++ left ∧
        SameBesidesReferences rest left := by
  simp only [raw] at h ⊢
  cases hquote : assigned.quote with
  | some quote =>
    obtain ⟨hkind, hfree⟩ := hassigned.quoted quote hquote
    have hreference : isReferenceChar quote = false ∧ quote ≠ '&' := by
      exact (by decide : ∀ quote ∈ ['"', '\''], isReferenceChar quote = false ∧ quote ≠ '&')
        quote hkind
    simp only [hquote, List.cons_append, List.append_assoc, List.nil_append] at h
    obtain ⟨_, rfl, hinner⟩ := h.exists_of_cons hreference.2
    obtain ⟨value, left, rfl, hvalue, hleft⟩ := hinner.exists_of_append_cons hreference.1
    have hne : ∀ c ∈ value, c ≠ quote := by
      refine hvalue.forall_mem (fun c hc => ?_) fun c hc hsame => hfree (hsame ▸ hc)
      rintro rfl
      rw [hc] at hreference
      cases hreference.1
    refine ⟨value, left,
      ⟨hassigned.left, hassigned.right, ?_, fun hnone =>
      absurd hnone (Option.some_ne_none quote)⟩, by simp, hleft⟩
    rintro _ ⟨⟩
    exact ⟨hkind, fun hmem => hne _ hmem rfl⟩
  | none =>
    obtain ⟨hne, hchars⟩ := hassigned.unquoted hquote
    simp only [hquote] at h
    have hstop : ∀ c ∈ rest.head?, isReferenceChar c = false := by
      intro c hc
      rw [← Bool.not_eq_true]
      intro hreference
      have hvalue := isLooseValueChar_of_isReferenceChar hreference
      rw [hends hquote c hc] at hvalue
      cases hvalue
    obtain ⟨value, left, rfl, hvalue, hleft⟩ := h.exists_of_append_of_head? hstop
    exact ⟨value, left, ⟨hassigned.left, hassigned.right, by simp, fun _ => ⟨hvalue.ne_nil hne,
      hvalue.forall_mem (fun c => isLooseValueChar_of_isReferenceChar) hchars⟩⟩, rfl, hleft⟩

theorem exists_source_of_same (hassigned : assigned.IsLoose)
    (hends : assigned.quote = none → ∀ c ∈ rest.head?, isLooseValueChar c = false)
    (h : SameBesidesReferences (assigned.source ++ rest) other) : ∃ (another : Assigned)
    (left : Text),
      other = another.source ++ left ∧ another.IsLoose ∧ another.quote = assigned.quote ∧
      SameBesidesReferences rest left := by
  have hsource : assigned.source ++ rest = (assigned.left ++ '=' :: assigned.right) ++
    (assigned.raw ++ rest) := by
    simp [source]
  have hfree : '&' ∉ assigned.left ++ '=' :: assigned.right := by
    rw [List.mem_append, List.mem_cons, not_or, not_or]
    exact ⟨fun hmem => absurd (hassigned.left _ hmem) (by decide), by decide,
      fun hmem => absurd (hassigned.right _ hmem) (by decide)⟩
  rw [hsource] at h
  obtain ⟨_, rfl, hraw⟩ := h.exists_of_append hfree
  obtain ⟨value, left, hloose, rfl, hleft⟩ := exists_raw_of_same hassigned hends hraw
  exact ⟨{ assigned with value }, left, by simp [source], hloose, rfl, hleft⟩

end Assigned

namespace LooseAttribute

variable {attr : LooseAttribute} {attributes : List LooseAttribute}

/-- What other references leave of an attribute. -/
def outline (attr : LooseAttribute) : Text × Option (Option Char) :=
  (attr.name, attr.assigned.map (·.quote))

theorem exists_source_of_same (hattr : attr.IsLoose) (hname : '&' ∉ attr.name)
    (hends : attr.EndsBefore rest)
    (h : SameBesidesReferences (attr.source ++ rest) other) : ∃ (another : LooseAttribute)
    (left : Text),
      other = another.source ++ left ∧ another.IsLoose ∧ another.outline = attr.outline ∧
      SameBesidesReferences rest left := by
  obtain ⟨gap, name, assigned⟩ := attr
  have hfree : '&' ∉ gap ++ name := by
    rw [List.mem_append, not_or]
    exact ⟨fun hmem => absurd (hattr.gap.2 _ hmem) (by decide), hname⟩
  simp only [source, body, ← List.append_assoc] at h
  rw [List.append_assoc] at h
  obtain ⟨_, rfl, hassigned⟩ := h.exists_of_append hfree
  cases assigned with
  | none => exact ⟨⟨gap, name, none⟩, _, by simp [source, body], hattr, rfl, hassigned⟩
  | some assigned =>
    obtain ⟨another, left, rfl, hloose, hquote, hleft⟩ :=
      Assigned.exists_source_of_same (hattr.assigned assigned rfl) hends hassigned
    refine ⟨⟨gap, name, some another⟩, left, by
      simp [source, body], ⟨hattr.gap, hattr.name, ?_⟩, ?_, hleft⟩
    · rintro _ ⟨⟩
      exact hloose
    · simp [outline, hquote]

theorem exists_attributesSource_of_same (hattributes : ∀ attr ∈ attributes, attr.IsLoose)
    (hnames : ∀ attr ∈ attributes, '&' ∉ attr.name)
    (hends : ∀ attr ∈ attributes.getLast?, attr.EndsBefore rest)
    (h : SameBesidesReferences (attributesSource attributes ++ rest) other) :
    ∃ (others : List LooseAttribute) (left : Text),
      other = attributesSource others ++ left ∧ (∀ attr ∈ others, attr.IsLoose) ∧
        others.map outline = attributes.map outline ∧ SameBesidesReferences rest left := by
  induction attributes generalizing other with
  | nil => exact ⟨[], other, rfl, List.forall_mem_nil _, rfl, h⟩
  | cons attr attributes ih =>
    obtain ⟨hattr, hattributes⟩ := List.forall_mem_cons.mp hattributes
    obtain ⟨hname, hnames⟩ := List.forall_mem_cons.mp hnames
    rw [attributesSource_cons_append] at h
    obtain ⟨another, _, rfl, hloose, houtline, hmore⟩ :=
      exists_source_of_same hattr hname (endsBefore_attributesSource hattributes hends) h
    obtain ⟨others, left, rfl, hothers, houtlines, hleft⟩ :=
      ih hattributes hnames (fun last hlast => hends last (List.mem_getLast?_cons hlast)) hmore
    refine ⟨another :: others, left, (attributesSource_cons_append _ _ _).symm,
      List.forall_mem_cons.mpr ⟨hloose, hothers⟩, ?_, hleft⟩
    rw [List.map_cons, List.map_cons, houtline, houtlines]

end LooseAttribute

theorem LooseTag.exists_source_of_same (htag : tag.IsWritten)
    (hnames : ∀ name ∈ tag.names, '&' ∉ name)
    (h : SameBesidesReferences (tag.source ++ text) other) : ∃ (another : LooseTag) (left : Text),
      other = another.source ++ left ∧ another.IsWritten ∧ another.names = tag.names ∧
      SameBesidesReferences text left := by
  obtain ⟨hname, hnames⟩ := List.forall_mem_cons.mp hnames
  have hfree : ∀ attr ∈ tag.attributes, '&' ∉ attr.name :=
    fun attr hattr => hnames _ (List.mem_map_of_mem hattr)
  have hfront : '&' ∉ '<' :: tag.name := List.not_mem_cons_of_ne_of_not_mem (by decide) hname
  have hending : '&' ∉ tag.gap ++ tagEnd tag.closes := by
    rw [List.mem_append, not_or]
    exact ⟨fun hmem => absurd (htag.gap _ hmem) (by decide), by cases tag.closes <;> decide⟩
  have hsource : tag.source ++ text = '<' :: tag.name ++ (attributesSource tag.attributes ++
      (tag.gap ++ tagEnd tag.closes ++ text)) := by simp [source]
  have hends := endsBefore_tagEnd htag.gap htag.last text
  rw [← List.append_assoc] at hends
  rw [hsource] at h
  obtain ⟨_, rfl, hattributes⟩ := h.exists_of_append hfront
  obtain ⟨others, _, rfl, hothers, houtlines, hend⟩ :=
    LooseAttribute.exists_attributesSource_of_same htag.attributes hfree hends hattributes
  obtain ⟨left, rfl, hleft⟩ := hend.exists_of_append hending
  have hquotes : others.map (·.assigned.map (·.quote)) =
    tag.attributes.map (·.assigned.map (·.quote)) := by
    have hmapped := congrArg (List.map Prod.snd) houtlines
    rwa [List.map_map, List.map_map] at hmapped
  have hnames : others.map (·.name) = tag.attributes.map (·.name) := by
    have hmapped := congrArg (List.map Prod.fst) houtlines
    rwa [List.map_map, List.map_map] at hmapped
  refine ⟨{ tag with attributes := others }, left, by
    simp [source], ⟨htag.start, htag.name, hothers, htag.gap, ?_⟩, congrArg (tag.name :: ·) hnames,
      hleft⟩
  intro hgap hcloses attr hattr assigned hassigned hnone
  have hlast : (others.map (·.assigned.map (·.quote))).getLast? = some (some none) := by
    rw [List.getLast?_map, Option.mem_def.mp hattr, Option.map_some, Option.mem_def.mp hassigned,
      Option.map_some, hnone]
  rw [hquotes, List.getLast?_map, Option.map_eq_some_iff] at hlast
  obtain ⟨old, hold, hassigned⟩ := hlast
  obtain ⟨assigned, hassigned, hquote⟩ := Option.map_eq_some_iff.mp hassigned
  exact htag.last hgap hcloses old hold assigned hassigned hquote

theorem Writes.of_sameBesidesReferences (hnames : ∀ tag ∈ tags, ∀ name ∈ tag.names, '&' ∉ name)
    (h : Writes text tags []) (hsame : SameBesidesReferences text other) :
    ∃ others, Writes other others [] ∧ others.map LooseTag.names = tags.map LooseTag.names := by
  generalize hrest : ([] : Text) = rest at h
  induction h generalizing other with
  | done rest =>
    subst hrest
    cases hsame
    exact ⟨[], .done [], rfl⟩
  | @char c text rest tags hc _ ih =>
    cases hsame with
    | char _ hsame =>
      obtain ⟨others, hwrites, hothers⟩ := ih hnames hsame hrest
      exact ⟨others, .char hc hwrites, hothers⟩
    | @reference first second text other hfirst hsecond hsame =>
      have hbracket : ∀ {passed : Text}, (∀ c ∈ passed, isReferenceChar c) → '<' ∉ passed :=
        fun hpassed hmem => absurd (hpassed _ hmem) (by decide)
      obtain ⟨others, hwrites, hothers⟩ := ih hnames (hsame.chars first) hrest
      subst hrest
      exact ⟨others,
        .char (by decide) ((hwrites.of_chars (hbracket hfirst)).chars (hbracket hsecond)), hothers⟩
  | closing _ ih =>
    obtain ⟨_, rfl, hslash⟩ := hsame.exists_of_cons (by decide)
    obtain ⟨_, rfl, hleft⟩ := hslash.exists_of_cons (by decide)
    obtain ⟨others, hwrites, hothers⟩ := ih hnames hleft hrest
    exact ⟨others, .closing hwrites, hothers⟩
  | declaration hcomment hsection _ ih =>
    obtain ⟨_, rfl, hmark⟩ := hsame.exists_of_cons (by decide)
    obtain ⟨_, rfl, hleft⟩ := hmark.exists_of_cons (by decide)
    obtain ⟨others, hwrites, hothers⟩ := ih hnames hleft hrest
    exact ⟨others, .declaration (fun hbegins => hcomment (hleft.symm.isPrefix (by decide) hbegins))
      (fun hbegins => hsection (hleft.symm.isPrefix (by decide) hbegins)) hwrites, hothers⟩
  | covered cover hbody _ ih =>
    have hopening : '&' ∉ cover.opening := by cases cover <;> decide
    have hfree : '&' ∉ cover.closing := by cases cover <;> decide
    have hclosing : ∀ c ∈ cover.closing.head?, isReferenceChar c = false := by
      cases cover <;> (rintro c ⟨⟩; decide)
    obtain ⟨_, rfl, hinner⟩ := hsame.exists_of_append hopening
    obtain ⟨inner, _, rfl, hinside, hend⟩ :=
      hinner.exists_of_append_of_head? (by cases cover <;> exact hclosing)
    obtain ⟨left, rfl, hleft⟩ := hend.exists_of_append hfree
    obtain ⟨others, hwrites, hothers⟩ := ih hnames hleft hrest
    exact ⟨others, .covered cover (hinside.holds hbody) hwrites, hothers⟩
  | opening htag _ ih =>
    obtain ⟨hname, hnames⟩ := List.forall_mem_cons.mp hnames
    obtain ⟨another, left, rfl, hanother, hsameNames, hleft⟩ :=
      LooseTag.exists_source_of_same htag hname hsame
    obtain ⟨others, hwrites, hothers⟩ := ih hnames hleft hrest
    refine ⟨another :: others, .opening hanother hwrites, ?_⟩
    rw [List.map_cons, List.map_cons, hsameNames, hothers]

end Visualforce.Markup
