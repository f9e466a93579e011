import Visualforce.Proofs.Markup.CommentedPage
import Visualforce.Proofs.Markup.OrdinaryBuild
import Visualforce.Proofs.Pattern.Keyword

/-! # Passes over pages with comments

No pass takes a comment for a part of the page. Only the qualifiers of the tags that it holds count
with those of the page, and to declare them as well does no harm.
-/
namespace Visualforce.Markup
open Pattern Cursor

variable {κ α : Type} {pattern : Pattern κ} {collect : Piece κ → List α} {view : Hit κ → α}
variable {encode : Text → Text} {items : List Item} {token part : Token} {parts : List Token}
variable {before : Option Char} {body rest : Text} {ahead : Text → Prop}

theorem Token.IsRemark.isOrdinary_or (h : part.IsRemark) :
    part.IsOrdinary ∨ ∃ content, part = .text content ∧ ∀ c ∈ content, isRemarkChar c := by
  cases part with
  | text content => exact .inr ⟨content, rfl, h⟩
  | opening head closes => exact .inl h
  | closing tag => exact .inl h

theorem not_mem_of_isRemarkChar {text : Text} (h : ∀ c ∈ text, isRemarkChar c) {mark : Char}
    (hmark : isRemarkChar mark = false) : mark ∉ text := by
  intro hmem
  rw [h mark hmem] at hmark
  cases hmark

/-- A comment is scanned by itself when its closing may follow what it holds. -/
theorem yields_commentSource {opened values closed : List α}
    (hopening : Yields pattern collect anything commentOpening opened)
    (hbody : Yields pattern collect ahead body values)
    (hclosing : Yields pattern collect anything commentClosing closed)
    (hahead : ∀ rest, ahead (commentClosing ++ rest)) :
    Yields pattern collect anything (commentSource body) (opened ++ (values ++ closed)) :=
  hopening.append (hbody.append_closing hclosing hahead)

theorem yields_quiet {passed : Text} (h : ∀ before rest, Quiet pattern before passed rest) :
    Yields pattern (seen view) anything passed [] :=
  .of_quiet (fun _ _ => trivial) fun before rest _ => h before rest

theorem written_quiet {write : Hit κ → Text} {passed : Text}
    (h : ∀ before rest, Quiet pattern before passed rest) :
    Yields pattern (written write) anything passed passed :=
  .written_of_quiet (fun _ _ => trivial) fun before rest _ => h before rest

section Begins
variable (hbegins : Begins pattern (· == '<'))
include hbegins

theorem quiet_remarkText (h : ∀ c ∈ body, isRemarkChar c) (before : Option Char) (rest : Text) :
    Quiet pattern before body rest :=
  quiet_of_not_mem hbegins (not_mem_of_isRemarkChar h (by decide)) before rest

theorem quiet_commentClosing (before : Option Char) (rest : Text) :
    Quiet pattern before commentClosing rest :=
  quiet_of_not_mem hbegins (by decide) before rest

variable
  (hopening : ∀ before rest, pattern.matchAt (between before (commentOpening ++ rest)) = none)
include hopening

theorem quiet_commentOpening (before : Option Char) (rest : Text) :
    Quiet pattern before commentOpening rest :=
  ⟨hopening before rest, quiet_of_not_mem hbegins (by decide) _ rest⟩

/-- A pattern that misses the tags of a page is quiet on the page with its comments. -/
theorem quiet_itemsSource
    (hmiss : ∀ token : Token, token.IsClear → token.IsTransparent → Misses pattern token)
    (h : ∀ item ∈ items, item.IsReadable encode) :
    Quiet pattern none (itemsSource encode items) [] := by
  have hclear {token : Token} (hclear : token.IsClear) (htransparent : token.IsTransparent)
      (before : Option Char) (rest : Text) : Quiet pattern before token.source rest :=
    (hmiss token hclear htransparent).quiet hbegins hclear before rest
  refine quiet_flatMap (fun item hitem before rest => ?_) none []
  cases item with
  | token token =>
    obtain ⟨hread, htransparent⟩ := h _ hitem
    exact hclear hread.isClear ((token.isTransparent_encoded encode).mpr htransparent) before rest
  | comment parts =>
    refine (quiet_commentOpening hbegins hopening before _).append
      (Quiet.append (quiet_flatMap (fun part hpart before rest => ?_) _ _)
        (quiet_commentClosing hbegins _ rest))
    rcases ((h _ hitem).each part hpart).isOrdinary_or with hordinary | ⟨content, rfl, hchars⟩
    · exact hclear hordinary.isClear hordinary.isTransparent before rest
    · exact quiet_remarkText hbegins hchars before rest

end Begins

theorem matchAt_opaqueElement_comment {name : Text} (hname : name ∈ Config.standard.opaqueTags)
    (before : Option Char) (rest : Text) :
    (opaqueElement (caseless name)).matchAt (between before (commentOpening ++ rest)) = none := by
  have hrun : ∀ groups goOn, (caseless name : Pattern OpaquePart).run
      ⟨between (some '<') ('!' :: '-' :: '-' :: rest), groups⟩ goOn = none := by
    intro groups goOn
    obtain ⟨hne, -⟩ := opaqueTags_lower name hname
    obtain ⟨c, more, rfl⟩ := List.exists_cons_of_ne_nil hne
    have hc : Text.sameUpToCase c '!' = false := (by decide : ∀ name ∈ Config.standard.opaqueTags,
      ∀ c ∈ name, Text.sameUpToCase c '!' = false) _ hname c List.mem_cons_self
    have hcons : (caseless (c :: more) : Pattern OpaquePart) =
        one (Text.sameUpToCase c) ++ caseless more := rfl
    rw [hcons, run_append, run_one_cons, hc, if_neg (by decide)]
  simp [matchAt, opaqueElement, opaqueOpening, char, commentOpening, hrun]

theorem wrapOpaque_items (h : ∀ item ∈ items, item.IsReadable encode) :
    wrapOpaque Config.standard.opaqueTags (itemsSource encode items) = itemsSource encode items :=
  wrapOpaque_of_replace fun _ hname =>
    replace_of_quiet (quiet_itemsSource (begins_opaqueElement _)
      (matchAt_opaqueElement_comment hname) (fun _ => misses_opaqueTag hname) h)

theorem matchAt_sectionPattern_comment (before : Option Char) (rest : Text) :
    sectionPattern.matchAt (between before (commentOpening ++ rest)) = none := by
  refine matchAt_section_of_not_isPrefix before _ fun h => ?_
  have hfront : commentOpening <+: sectionOpening :=
    List.prefix_of_prefix_length_le (List.prefix_append _ rest) h (by decide)
  exact absurd hfront (by decide)

/-- A start tag in a comment is written again as it stands, like one of the page. -/
theorem yields_startTag_item {item : Item} (h : item.IsReadable encode) :
    Yields startTagPattern (written (normalStartTag true)) anything (item.source encode)
      (item.source encode) := by
  cases item with
  | token token => exact yields_startTag h.1.isClear
  | comment parts =>
    have hparts : Yields startTagPattern (written (normalStartTag true)) anything (sourceOf parts)
        (sourceOf parts) := by
      refine .flatMap fun part hpart => ?_
      rcases (h.each part hpart).isOrdinary_or with hordinary | ⟨content, rfl, hchars⟩
      · exact yields_startTag hordinary.isClear
      · exact written_quiet (quiet_remarkText begins_startTagPattern hchars)
    have hopening : ∀ before rest, Quiet startTagPattern before commentOpening rest :=
      quiet_startTagPattern (by decide) (by decide)
    exact yields_commentSource (written_quiet hopening) hparts
      (written_quiet (quiet_commentClosing begins_startTagPattern)) fun _ => trivial

theorem keepsReferences_item {item : Item} (h : item.IsReadable encode) :
    KeepsReferences (item.source encode) := by
  cases item with
  | token token => exact keepsReferences_source h.1.isClear
  | comment parts =>
    refine (KeepsReferences.of_not_mem (by decide)).append
      (KeepsReferences.append (.flatMap fun part hpart => ?_) (.of_not_mem (by decide)))
    rcases (h.each part hpart).isOrdinary_or with hordinary | ⟨content, rfl, hchars⟩
    · exact keepsReferences_source hordinary.isClear
    · exact .of_not_mem (not_mem_of_isRemarkChar hchars (by decide))

theorem normalizeOutsideSections_items (h : ∀ item ∈ items, item.IsReadable encode) :
    normalizeOutsideSections true (itemsSource encode items) = itemsSource encode items := by
  have hquiet : Quiet sectionPattern none (itemsSource encode items) [] :=
    quiet_itemsSource begins_sectionPattern matchAt_sectionPattern_comment
      (fun _ hclear _ => misses_sectionPattern hclear) h
  have htags : startTagPattern.replace (normalStartTag true) (itemsSource encode items) =
      itemsSource encode items :=
    (Yields.flatMap fun item hitem => yields_startTag_item (h item hitem)).replace trivial
  have hkeeps : KeepsReferences (itemsSource encode items) :=
    .flatMap fun item hitem => keepsReferences_item (h item hitem)
  rw [normalizeOutsideSections, changeBetween_of_quiet _ hquiet, normalize, htags,
    hkeeps.named.replace trivial, hkeeps.loose.replace trivial]

theorem begins_namespaceDeclaration : Begins namespaceDeclaration (· == 'x') := by
  intro before text groups goOn h
  have hfront : ¬ "xmlns".toList <+: text := by
    rintro ⟨more, rfl⟩
    exact absurd (h 'x' rfl) (by decide)
  rw [run_namespaceDeclaration, run_append, run_append, run_wordEdge,
    run_exactly_of_not_isPrefix hfront, ite_self]

theorem avoidsEquals_commentClosing (rest : Text) : AvoidsEquals (commentClosing ++ rest) := by
  have hbracket : AvoidsEquals ('>' :: rest) :=
    avoidsEquals_cons (by decide) (by decide) (by decide) rest
  exact hbracket.append (by decide : '=' ∉ ['-', '-'])

/-- What is written in a comment declares nothing. -/
theorem yields_declaration_comment (h : AreRemarks parts) :
    Yields namespaceDeclaration (seen declaredAt) anything (commentSource (sourceOf parts)) [] := by
  have hparts : Yields namespaceDeclaration (seen declaredAt) AvoidsEquals (sourceOf parts) [] := by
    refine .flatMap_nil fun part hpart => ?_
    rcases (h.each part hpart).isOrdinary_or with hordinary | ⟨content, rfl, hchars⟩
    · exact yields_ordinaryToken hordinary
    · exact isAssignment_namespaceDeclaration.yields_of_not_mem
        (not_mem_of_isRemarkChar hchars (by decide))
  have hquiet {mark : Text} (hmark : 'x' ∉ mark) :
      Yields namespaceDeclaration (seen declaredAt) anything mark [] :=
    yields_quiet (begins_namespaceDeclaration.quiet fun c hc =>
      beq_false_of_ne (ne_of_mem_of_not_mem hc hmark))
  exact yields_commentSource (hquiet (by decide)) hparts (hquiet (by decide))
    avoidsEquals_commentClosing

theorem quiet_tagQualifier (before : Option Char) (rest : Text) :
    Quiet tagQualifier before commentOpening rest := by
  refine quiet_commentOpening begins_tagQualifier (fun before rest => ?_) before rest
  simp [matchAt, tagQualifier, char, qualifier, isTagNameStart, commentOpening]

theorem qualifierAt_encoded (encode : Text → Text) (token : Token) :
    qualifierAt (token.encoded encode) = qualifierAt token := by
  cases token <;> rfl

theorem yields_tagQualifier_item {item : Item} (h : item.IsReadable encode) :
    Yields tagQualifier (seen (·.group ())) anything (item.source encode)
      (item.tokens.flatMap qualifierAt) := by
  cases item with
  | token token =>
    have hyields := yields_tagQualifier h.1.isClear
    rw [qualifierAt_encoded] at hyields
    rwa [Item.tokens, List.flatMap_singleton]
  | comment parts =>
    have hparts : Yields tagQualifier (seen (·.group ())) anything (sourceOf parts)
        (parts.flatMap qualifierAt) := by
      refine .flatMap fun part hpart => ?_
      rcases (h.each part hpart).isOrdinary_or with hordinary | ⟨content, rfl, hchars⟩
      · exact yields_tagQualifier hordinary.isClear
      · exact yields_quiet (quiet_remarkText begins_tagQualifier hchars)
    have hyields := yields_commentSource (yields_quiet quiet_tagQualifier) hparts
      (yields_quiet (quiet_commentClosing begins_tagQualifier)) fun _ => trivial
    rwa [List.nil_append, List.append_nil] at hyields

def isRunChar (c : Char) : Bool := isTagNameChar c || Text.isBlank c

/-- What follows a run of names, colons and blanks. -/
def afterRun (text : Text) : Option Char := (text.dropWhile isRunChar).head?

abbrev AvoidsAssigned : Text → Prop := Avoids afterRun '='

/-- A qualifier of an attribute is found only where an equals sign follows such a run. -/
theorem matchAt_attributeQualifier_of_afterRun (before : Option Char) (text : Text)
    (h : afterRun text ≠ some '=') : attributeQualifier.matchAt (between before text) = none := by
  have hblank : ∀ c, Text.isBlank c → isRunChar c := fun c hc => by simp [isRunChar, hc]
  have hqualifier : ∀ c, isQualifierChar c → isRunChar c := fun c hc => by
    simp [isRunChar, isTagNameChar_of_isQualifierChar hc]
  have hstart : ∀ c, isTagNameStart c → isRunChar c := fun c hc =>
    hqualifier c (class_of_isTagNameStart isQualifierChar true (by decide) hc)
  have hcolon : ∀ c, (c == ':') = true → isRunChar c := fun c hc => beq_iff_eq.mp hc ▸ by decide
  have hrun : PassesOnly isRunChar (blank ++ group () qualifier ++ char ':' ++
      plus (one isQualifierChar) ++ star blank : Pattern Unit) :=
    ((((PassesOnly.one hblank).append (((PassesOnly.one hstart).append
      (PassesOnly.one hqualifier).star).group ())).append
        (PassesOnly.one hcolon)).append
          (PassesOnly.one hqualifier).plus).append (PassesOnly.one hblank).star
  rw [Option.eq_none_iff_forall_ne_some]
  intro hit hmatch
  obtain ⟨middle, hfront, hsign⟩ := leads_append.mp (leads_of_matchAt hmatch).2
  obtain ⟨passed, hpassed, hchars⟩ := hrun hfront
  refine h ?_
  rw [afterRun, show text = passed ++ middle.cursor.rest from hpassed, hsign.char_inv.1,
    List.dropWhile_append_of_pos hchars]
  rfl

theorem avoidsAssigned_cons {c : Char} (hc : isRunChar c = false) (hne : c ≠ '=') (rest : Text) :
    AvoidsAssigned (c :: rest) := by
  intro passed _ hpassed
  obtain ⟨left, hleft, heq⟩ := Text.exists_suffix_dropWhile isRunChar passed hc rest
  rw [afterRun, heq]
  exact Text.head?_append_ne (fun hmem => hpassed (hleft.subset hmem)) fun h =>
    hne (Option.some.inj h)

theorem avoidsAssigned_commentClosing (rest : Text) :
    AvoidsAssigned (commentClosing ++ rest) := by
  have hbracket : AvoidsAssigned ('>' :: rest) := avoidsAssigned_cons (by decide) (by decide) rest
  exact hbracket.append (by decide : '=' ∉ ['-', '-'])

theorem yields_attributeQualifier_remark (h : part.IsRemark) :
    Yields attributeQualifier (seen (·.group ())) AvoidsAssigned part.source
      (attributeQualifiersAt part) := by
  cases part with
  | text content =>
    exact yields_of_avoids matchAt_attributeQualifier_of_afterRun
      (not_mem_of_isRemarkChar h (by decide))
  | opening head closes =>
    exact (yields_attributeQualifier_opening (Head.IsOrdinary.isClear h) closes).of_anything
      fun rest _ => avoidsAssigned_cons (by decide) (by decide) _
  | closing tag =>
    have htag : '=' ∉ tag := IsOrdinaryTag.not_mem h (by decide) (by decide)
    exact yields_of_avoids matchAt_attributeQualifier_of_afterRun
      (by simpa [Token.source] using htag)

theorem attributeQualifiersAt_encoded (encode : Text → Text) (token : Token) :
    attributeQualifiersAt (token.encoded encode) = attributeQualifiersAt token := by
  cases token <;> simp [Token.encoded, attributeQualifiersAt, Head.encoded, List.flatMap_map,
    Attribute.encoded]

theorem yields_attributeQualifier_item {item : Item} (h : item.IsReadable encode) :
    Yields attributeQualifier (seen (·.group ())) AvoidsColon (item.source encode)
      (item.tokens.flatMap attributeQualifiersAt) := by
  cases item with
  | token token =>
    have hyields := yields_attributeQualifier h.1.isClear
    rw [attributeQualifiersAt_encoded] at hyields
    rwa [Item.tokens, List.flatMap_singleton]
  | comment parts =>
    have hquiet {mark : Text} (hmark : ∀ c ∈ mark, Text.isBlank c = false) :
        Yields attributeQualifier (seen (·.group ())) anything mark [] :=
      yields_quiet (begins_attributeQualifier.quiet hmark)
    have hparts : Yields attributeQualifier (seen (·.group ())) AvoidsAssigned (sourceOf parts)
        (parts.flatMap attributeQualifiersAt) :=
      .flatMap fun part hpart => yields_attributeQualifier_remark (h.each part hpart)
    have hyields := yields_commentSource (hquiet (by decide)) hparts (hquiet (by decide))
      avoidsAssigned_commentClosing
    rw [List.nil_append, List.append_nil] at hyields
    exact hyields.of_anything fun rest _ => avoidsColon_cons (by decide) (by decide) _

/-- The qualifiers that a page uses, those in its comments included. -/
def qualifiersAmong (items : List Item) : List Text := qualifiersOf (items.flatMap Item.tokens)

theorem isQualifier_of_mem_qualifiersAmong (h : ∀ item ∈ items, item.IsReadable encode) :
    ∀ name ∈ qualifiersAmong items, IsQualifier name := by
  intro name hname
  obtain ⟨token, htoken, hname⟩ := mem_qualifiersOf.mp hname
  obtain ⟨item, hitem, htoken⟩ := List.mem_flatMap.mp htoken
  cases item with
  | token other =>
    obtain rfl := List.mem_singleton.mp htoken
    rw [← qualifierAt_encoded encode, ← attributeQualifiersAt_encoded encode] at hname
    exact isQualifier_of_mem_token (h _ hitem).1.isClear hname
  | comment parts =>
    rcases ((h _ hitem).each token htoken).isOrdinary_or with hordinary | ⟨content, rfl, -⟩
    · exact isQualifier_of_mem_token hordinary.isClear hname
    · rcases hname with hname | hname <;> cases hname

theorem qualifiers_subset_qualifiersAmong {head : Head}
    (hhead : head ∈ headsOf (tokensAmong items)) : head.qualifiers ⊆ qualifiersAmong items := by
  refine qualifiers_subset_qualifiersOf ?_
  obtain ⟨token, htoken, heq⟩ := List.mem_filterMap.mp hhead
  obtain ⟨item, hitem, hitemToken⟩ := List.mem_filterMap.mp htoken
  refine List.mem_filterMap.mpr ⟨token, List.mem_flatMap.mpr ⟨item, hitem, ?_⟩, heq⟩
  cases item with
  | token other =>
    cases hitemToken
    exact List.mem_singleton_self _
  | comment parts => cases hitemToken

theorem undeclared_items (h : ∀ item ∈ items, item.IsReadable encode)
    (hnone : declarations (itemsSource encode items) = []) :
    undeclared (itemsSource encode items) = qualifiersAmong items := by
  have htags : tagQualifier.findAll () (itemsSource encode items) =
      items.flatMap fun item => item.tokens.flatMap qualifierAt :=
    (Yields.flatMap fun item hitem => yields_tagQualifier_item (h item hitem)).hits trivial
  have hattributes : attributeQualifier.findAll () (itemsSource encode items) =
      items.flatMap fun item => item.tokens.flatMap attributeQualifiersAt :=
    (Yields.flatMap fun item hitem => yields_attributeQualifier_item (h item hitem)).hits
      avoidsColon_nil
  rw [undeclared, hnone, htags, hattributes, ← List.flatMap_assoc, ← List.flatMap_assoc]
  refine List.filter_eq_self.mpr fun name hname => ?_
  simp [(isQualifier_of_mem_qualifiersAmong h name hname).free]

end Visualforce.Markup
