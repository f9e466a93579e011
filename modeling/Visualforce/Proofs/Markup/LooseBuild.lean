import Visualforce.Proofs.Markup.RenderBuild
import Visualforce.Proofs.Markup.Verbatim

/-! # Building loosely written pages

A page may write the attributes of its root loosely, and their values may hold the characters that
documents give a meaning to. It is built into an element with these attributes in the order written.
A value must not hold what a pass over the whole page would take for something else: a section, the
tag of an opaque element, a reference or a colon.
-/
namespace Visualforce.Markup
open Pattern Cursor
open Text (somewhere Skips EndsAt isInfix_iff_somewhere isPrefixOf_stop)

variable {value : Text} {attr : LooseAttribute} {tag : LooseTag} {begins : Text → Bool}

/-- Whether a tag is opened here whose name begins with the given one, up to case. -/
def beginsOpening (name text : Text) : Bool :=
  text.head? == some '<' && beginsWithName name text.tail

/-- A value that no pass over a page takes for anything but a value. -/
structure IsTolerable (value : Text) : Prop where
  chars : ∀ c ∈ value, Xml.isLegal c ∧ 0x20 ≤ c.toNat ∧ c ≠ ':'
  sections : ¬ sectionOpening <:+: value
  tags : ∀ name ∈ Config.standard.opaqueTags, somewhere (beginsOpening name) value = false
  references : somewhere beginsReference value = false

/-- The element that is written. -/
def LooseTag.head (tag : LooseTag) : Head := ⟨tag.name, tag.attributes.map LooseAttribute.attribute⟩

/-- What ends a page whose root does not close itself. -/
def pageEnd (closes : Bool) : Text := if closes then [] else "</apex:page>".toList

/-- A page with nothing in its root. -/
def LooseTag.page (tag : LooseTag) : Text := tag.source ++ pageEnd tag.closes

/-- How the root of a page may be written. Documents know fewer blanks than pages, and a tag without
attributes keeps those before its end. -/
structure LooseTag.IsTolerable (tag : LooseTag) : Prop where
  loose : tag.IsLoose
  root : tag.name = pageRoot
  names : ∀ attr ∈ tag.attributes, isAsciiPart attr.name ∧ attr.name ≠ "xmlns".toList
  distinct : (tag.attributes.map (·.name)).Nodup
  values : ∀ attr ∈ tag.attributes, Markup.IsTolerable attr.value
  gap : tag.attributes = [] → ∀ c ∈ tag.gap, Xml.isSpace c

namespace LooseTag.IsTolerable

theorem isPart (h : tag.IsTolerable) {attr : LooseAttribute} (hattr : attr ∈ tag.attributes) :
    Markup.isPart attr.name :=
  isPart_of_isAsciiPart (h.names attr hattr).1

end LooseTag.IsTolerable

theorem skips_source (hbegins : ∀ c rest, begins (c :: rest) → c = '<')
    (hends : ∀ quote ∈ ['"', '\''], EndsAt begins quote) (h : attr.IsLoose)
    (hname : '<' ∉ attr.name)
    (hvalue : somewhere begins attr.value = false) : Skips begins attr.source := by
  have hmark : ∀ {text : Text}, '<' ∉ text → Skips begins text := Text.skips_of_not_mem hbegins
  have hblank : ∀ {text : Text}, (∀ c ∈ text, Text.isBlank c) → '<' ∉ text :=
    fun hall hmem => absurd (hall _ hmem) (by decide)
  rw [LooseAttribute.source, LooseAttribute.body]
  refine (hmark (hblank h.gap.2)).append ((hmark hname).append ?_)
  cases hassigned : attr.assigned with
  | none => exact hmark List.not_mem_nil
  | some assigned =>
    have hloose := h.assigned assigned hassigned
    have hassignedValue : somewhere begins assigned.value = false := by
      rw [LooseAttribute.value, hassigned] at hvalue
      exact hvalue
    have hsign : Skips begins ['='] := hmark (by decide)
    refine (hmark (hblank hloose.left)).append
      (hsign.append ((hmark (hblank hloose.right)).append ?_))
    rw [Assigned.raw]
    cases hquote : assigned.quote with
    | some quote =>
      have hquotes := (hloose.quoted quote hquote).1
      have hsingle : Skips begins [quote] := hmark (by
        rw [List.mem_singleton]
        exact forall_mem_quotes (p := ('<' ≠ ·)) (by decide) (by decide) quote hquotes)
      intro rest
      have hsplit : quote :: (assigned.value ++ [quote]) ++ rest = [quote] ++
        (assigned.value ++ quote :: rest) := by
        simp
      rw [hsplit, hsingle, (hends quote hquotes).somewhere_eq hassignedValue]
      exact hsingle rest
    | none =>
      exact hmark fun hmem => absurd ((hloose.unquoted hquote).2 _ hmem) (by decide)

theorem somewhere_page (hbegins : ∀ c rest, begins (c :: rest) → c = '<')
    (hends : ∀ quote ∈ ['"', '\''], EndsAt begins quote) (h : tag.IsTolerable)
    (hroot : Skips begins ('<' :: pageRoot))
    (hclosing : ∀ closes, somewhere begins (pageEnd closes) = false)
    (hvalues : ∀ attr ∈ tag.attributes, somewhere begins attr.value = false) :
    somewhere begins tag.page = false := by
  have hattributes : Skips begins (attributesSource tag.attributes) := by
    refine Skips.flatMap fun attr hattr => skips_source hbegins hends
      (h.loose.attributes attr hattr) ?_ (hvalues attr hattr)
    exact not_mem_of_isPart (h.isPart hattr) (by decide)
  have hgap : Skips begins tag.gap :=
    Text.skips_of_not_mem hbegins fun hmem => absurd (h.loose.gap _ hmem) (by decide)
  have hend : Skips begins (tagEnd tag.closes) :=
    Text.skips_of_not_mem hbegins (by cases tag.closes <;> decide)
  have hsource : tag.page = '<' :: pageRoot ++
    (attributesSource tag.attributes ++ (tag.gap ++ (tagEnd tag.closes ++
      pageEnd tag.closes))) := by
    simp [LooseTag.page, LooseTag.source, h.root]
  rw [hsource, hroot, hattributes, hgap, hend, hclosing]

theorem beginsOpening_iff {name text : Text} :
    beginsOpening name text ↔ ∃ rest, text = '<' :: rest ∧ beginsWithName name rest := by
  rw [beginsOpening, Bool.and_eq_true, beq_iff_eq]
  cases text with
  | nil => simp
  | cons c rest => simp

theorem endsAt_beginsOpening {name : Text} {c : Char}
    (hc : ∀ d ∈ name, Text.sameUpToCase d c = false) :
    EndsAt (beginsOpening name) c := by
  intro first more rest other h
  obtain ⟨after, heq, hname⟩ := beginsOpening_iff.mp h
  obtain ⟨rfl, rfl⟩ := List.cons_eq_cons.mp heq
  exact beginsOpening_iff.mpr ⟨more ++ other, rfl, beginsWithName_stop hc hname other⟩

theorem wrapOpaque_page (h : tag.IsTolerable) : wrapOpaque Config.standard.opaqueTags tag.page =
    tag.page := by
  refine wrapOpaque_of_replace fun name hname => ?_
  have hquotes := (by decide : ∀ name ∈ Config.standard.opaqueTags, ∀ quote ∈ ['"',
    '\''], ∀ d ∈ name, Text.sameUpToCase d quote = false) name hname
  have hroot : Skips (beginsOpening name) ('<' :: pageRoot) ∧
      ∀ closes, somewhere (beginsOpening name) (pageEnd closes) = false := by
    rcases List.mem_cons.mp hname with rfl | hname
    · exact ⟨fun _ => rfl, by decide⟩
    · obtain rfl := List.mem_singleton.mp hname
      exact ⟨fun _ => rfl, by decide⟩
  have hnone := somewhere_page
    (fun c rest hc => (List.cons_eq_cons.mp (beginsOpening_iff.mp hc).choose_spec.1).1)
    (fun quote hquote => endsAt_beginsOpening (hquotes quote hquote)) h hroot.1 hroot.2
    fun attr hattr => (h.values attr hattr).tags name hname
  refine replace_opaqueElement ?_ wrapBody
  rw [← Bool.not_eq_true] at hnone ⊢
  refine fun hsome => hnone (Text.somewhere_mono (fun c rest helement => ?_) hsome)
  obtain ⟨after, heq, hbegins, -⟩ := beginsElement_iff.mp helement
  exact beginsOpening_iff.mpr ⟨after, heq, hbegins⟩

theorem quiet_sectionPattern_page (h : tag.IsTolerable) :
    Quiet sectionPattern none tag.page [] := by
  have hne : sectionOpening ≠ [] := by decide
  refine quiet_of_not_isInfix matchAt_section_of_not_isPrefix ?_ (by simp)
  rw [isInfix_iff_somewhere hne, Bool.not_eq_true]
  refine somewhere_page (fun c rest hc => ?_) (fun quote hquote => ?_) h (fun _ => rfl) (by decide)
    fun attr hattr => ?_
  · obtain ⟨more, hmore⟩ := List.isPrefixOf_iff_prefix.mp hc
    exact (List.cons_eq_cons.mp hmore).1.symm
  · have hmem : quote ∉ sectionOpening :=
      (by decide : ∀ quote ∈ ['"', '\''], quote ∉ sectionOpening) quote hquote
    exact fun _ _ _ other h => isPrefixOf_stop hmem h other
  · rw [← Bool.not_eq_true, ← isInfix_iff_somewhere hne]
    exact (h.values attr hattr).sections

/-- What follows the name of the root in normal form. -/
def LooseTag.left (tag : LooseTag) : Text :=
  tag.attributes.flatMap (·.attribute.quoted escapeMarks) ++
    ((if tag.attributes.isEmpty then tag.gap else []) ++ (tagEnd tag.closes ++ pageEnd tag.closes))

theorem yields_pageEnd (closes : Bool) :
    Yields startTagPattern (written (normalStartTag true)) anything (pageEnd closes)
      (pageEnd closes) := by
  cases closes with
  | true => exact .nil
  | false =>
    have hclear : (Token.closing pageRoot).IsClear := isUsable_pageRoot
    exact yields_startTag hclear

theorem normalizeOutsideSections_page (h : tag.IsTolerable) :
    normalizeOutsideSections true tag.page = '<' :: (pageRoot ++ tag.left) := by
  have hnames : ∀ attr ∈ tag.attributes, '&' ∉ attr.name :=
    fun attr hattr => not_mem_of_isPart (h.isPart hattr) (by decide)
  rw [normalizeOutsideSections, changeBetween_of_quiet _ (quiet_sectionPattern_page h),
    LooseTag.page, normalize_loose h.loose hnames
    (fun attr hattr => (h.values attr hattr).references) (yields_pageEnd tag.closes)
      (by cases tag.closes <;> decide)]
  simp [LooseTag.normal, LooseTag.left, h.root]

theorem not_mem_escapeMarks {mark : Char} (hmark : isReferenceChar mark = false)
    (h : mark ∉ value) :
    mark ∉ escapeMarks value := by
  rw [escapeMarks, List.mem_flatMap]
  rintro ⟨c, hc, hmem⟩
  split_ifs at hmem with hescaped
  · have hescapes : ∀ c ∈ ['<', '&'], ∀ d ∈ escapeChar c, isReferenceChar d := by decide
    have hreference := hescapes c (by simpa using hescaped) mark hmem
    rw [hmark] at hreference
    cases hreference
  · exact h (List.mem_singleton.mp hmem ▸ hc)

/-- Before the end of the root there is no colon but that of its name. -/
theorem exists_left (h : tag.IsTolerable) : ∃ passed, ':' ∉ passed ∧
    '<' :: (pageRoot ++ tag.left) = "<apex:".toList ++
      (passed ++ (tagEnd tag.closes ++ pageEnd tag.closes)) := by
  refine ⟨"page".toList ++ (tag.attributes.flatMap (·.attribute.quoted escapeMarks) ++
    if tag.attributes.isEmpty then tag.gap else []), ?_, ?_⟩
  · have hgap : ':' ∉ tag.gap := fun hmem => absurd (h.loose.gap _ hmem) (by decide)
    have hattributes : ':' ∉ tag.attributes.flatMap (·.attribute.quoted escapeMarks) := by
      rw [List.mem_flatMap]
      rintro ⟨attr, hattr, hmem⟩
      have hname : ':' ∉ attr.name := not_mem_of_isPart (h.isPart hattr) (by decide)
      have hvalue : ':' ∉ escapeMarks attr.value :=
        not_mem_escapeMarks (by decide) fun hmem => ((h.values attr hattr).chars _ hmem).2.2 rfl
      have hquote :=
        forall_mem_quotes (p := (':' ≠ ·)) (by decide) (by decide) _ (quoteOf_mem attr.value)
      simp [Attribute.quoted, LooseAttribute.attribute, hname, hvalue, hquote] at hmem
    rw [List.mem_append, List.mem_append, not_or, not_or]
    refine ⟨by decide, hattributes, ?_⟩
    split_ifs
    · exact hgap
    · exact List.not_mem_nil
  · have hroot : '<' :: pageRoot = "<apex:".toList ++ "page".toList := by decide
    rw [← List.cons_append, hroot, LooseTag.left]
    simp only [List.append_assoc]

/-- A run of name characters up to a colon is found at the name of the root and at its end only. -/
theorem somewhere_left (hbegins : ∀ text, begins text → (text.dropWhile isQualifierChar).head? =
    some ':')
    (hroot : Skips begins "<apex:".toList)
    (hend : ∀ closes, somewhere begins (tagEnd closes ++ pageEnd closes) = false)
    (h : tag.IsTolerable) : somewhere begins ('<' :: (pageRoot ++ tag.left)) = false := by
  obtain ⟨passed, hpassed, heq⟩ := exists_left h
  obtain ⟨c, more, hcons, hc, hne⟩ : ∃ c more, tagEnd tag.closes ++ pageEnd tag.closes = c :: more ∧
      isQualifierChar c = false ∧ c ≠ ':' := by
    cases tag.closes with
    | true => exact ⟨'/', ['>'], rfl, by decide, by decide⟩
    | false => exact ⟨'>', pageEnd false, rfl, by decide, by decide⟩
  have hskips : ∀ passed : Text, ':' ∉ passed → somewhere begins (passed ++ c :: more) =
    somewhere begins (c :: more) := by
    intro passed
    induction passed with
    | nil => exact fun _ => rfl
    | cons d passed ih =>
      intro hpassed
      have hnone : begins (d :: passed ++ c :: more) = false := by
        rw [← Bool.not_eq_true]
        intro hsome
        obtain ⟨left, hleft, hdrop⟩ :=
          Text.exists_suffix_dropWhile isQualifierChar (d :: passed) hc more
        have hhead := hbegins _ hsome
        rw [hdrop] at hhead
        exact Text.head?_append_ne (fun hmem => hpassed (hleft.subset hmem)) (by simpa using hne)
          hhead
      rw [List.cons_append, somewhere, ← List.cons_append, hnone, Bool.false_or]
      exact ih fun hmem => hpassed (.tail d hmem)
  rw [heq, hroot, hcons, hskips passed hpassed, ← hcons, hend]

theorem misnamed_left (h : tag.IsTolerable) :
    somewhere beginsMisnamed ('<' :: (pageRoot ++ tag.left)) = false := by
  refine somewhere_left (fun text hbegins => ?_) (fun _ => rfl) (by decide) h
  simp only [beginsMisnamed, Bool.and_eq_true, beq_iff_eq] at hbegins
  exact hbegins.1.2

theorem marks_left (h : tag.IsTolerable) : ∀ mark ∈ rootMarks, ¬ mark <:+:
    '<' :: (pageRoot ++ tag.left) := by
  have hcolon : ∀ front back : Text, (∀ c ∈ front, isQualifierChar c) → ∀ text,
      (front ++ ':' :: back).isPrefixOf text → (text.dropWhile isQualifierChar).head? =
      some ':' := by
    intro front back hfront text hbegins
    obtain ⟨more, rfl⟩ := List.isPrefixOf_iff_prefix.mp hbegins
    rw [List.append_assoc, List.dropWhile_append_of_pos hfront]
    rfl
  refine List.forall_mem_cons.mpr ⟨?_, List.forall_mem_singleton.mpr ?_⟩
  · rw [isInfix_iff_somewhere (by decide), Bool.not_eq_true]
    exact somewhere_left (hcolon "xmlns".toList "apex".toList (by decide)) (fun _ => rfl)
      (by decide) h
  · rw [isInfix_iff_somewhere (by decide), Bool.not_eq_true]
    exact somewhere_left (hcolon "urn".toList "apex".toList (by decide)) (fun _ => rfl) (by decide)
      h

theorem spells_escapeMarks {quote : Char} (hchars : ∀ c ∈ value, Xml.isLegal c ∧ 0x20 ≤ c.toNat)
    (hquote : quote ∉ value) :
    Spells (Xml.isValueCharIn quote) (escapeMarks value) value := by
  induction value with
  | nil => exact .nil
  | cons c value ih =>
    obtain ⟨⟨hlegal, hlow⟩, hchars⟩ := List.forall_mem_cons.mp hchars
    rw [List.mem_cons, not_or] at hquote
    have hrest := ih hchars hquote.2
    rw [escapeMarks_cons]
    split_ifs with hescaped
    · have hmarks : ∀ c ∈ ['<', '&'], (c, escapeChar c) ∈ references := by decide
      exact .reference (isReference_of_mem_references (hmarks c (by simpa using hescaped))) hrest
    · refine .char ?_ hrest
      rw [Bool.or_eq_true, not_or, beq_iff_eq, beq_iff_eq] at hescaped
      simp [Xml.isValueCharIn, hlegal, hlow, hescaped, Ne.symm hquote.1]

theorem isWritten_quoted (h : tag.IsTolerable) (hattr : attr ∈ tag.attributes) :
    Xml.IsWritten (attr.attribute.quoted escapeMarks) attr.attribute where
  spelling := .simple (h.isPart hattr)
  quoted := ⟨quoteOf attr.value, escapeMarks attr.value, quoteOf_mem attr.value, spells_escapeMarks
    (fun c hc => ⟨((h.values attr hattr).chars c hc).1, ((h.values attr hattr).chars c hc).2.1⟩)
    (quoteOf_not_mem (h.loose.attributes attr hattr)), rfl⟩

/-- The names of the root are usable, and its values can be written so that they are read back. -/
theorem LooseTag.IsTolerable.isReadBack (h : tag.IsTolerable) : tag.head.IsReadBack escape := by
  have hvalues : ∀ attr ∈ tag.head.attributes, Spells isClearValueChar (escape attr.value)
    attr.value := by
    refine List.forall_mem_map.mpr fun attr hattr => spells_escape fun c hc => ?_
    obtain ⟨hlegal, -, hcolon⟩ := (h.values attr hattr).chars c hc
    cases hlookup : references.lookup c with
    | some ref => exact .inr rfl
    | none =>
      exact .inl
        (by rw [isClearValueChar, isClearChar_of_lookup_eq_none hlegal hcolon hlookup,
        Bool.true_or])
  have htag : IsUsable tag.name := h.root.symm ▸ isUsable_pageRoot
  refine ⟨⟨htag, ?_, ?_, ?_⟩, hvalues⟩
  · refine List.forall_mem_map.mpr (List.forall_mem_map.mpr fun attr hattr => ?_)
    have hpart := h.isPart hattr
    exact ⟨⟨.simple hpart, by
      simp [Attribute.encoded, LooseAttribute.attribute, qualifierOf_simple hpart]⟩,
        (h.names attr hattr).2⟩
  · rw [Head.encoded, LooseTag.head, List.map_map, List.map_map]
    exact h.distinct
  · exact List.forall_mem_map.mpr fun attr hattr => ⟨attr.value, hvalues attr hattr⟩

theorem qualifiers_head (h : tag.IsTolerable) : tag.head.qualifiers = ["apex".toList] := by
  have hroot : qualifierOf tag.name = ["apex".toList] := by
    rw [h.root]
    exact qualifierOf_qualified (by decide : isPart "apex".toList) "page".toList
  have hnames : tag.head.attributes.flatMap (fun attr => qualifierOf attr.name) = [] := by
    refine List.flatMap_eq_nil_iff.mpr (List.forall_mem_map.mpr fun attr hattr => ?_)
    exact qualifierOf_simple (h.isPart hattr)
  rw [Head.qualifiers, hnames, List.append_nil]
  exact hroot

theorem isSpace_of_isEmpty (h : tag.IsTolerable) :
    ∀ c ∈ (if tag.attributes.isEmpty then tag.gap else []), Xml.isSpace c := by
  split_ifs with hempty
  · exact h.gap (List.isEmpty_iff.mp hempty)
  · simp

/-- With its qualifiers declared, the page in normal form is read as an element with the attributes
of the root. -/
theorem read_left (h : tag.IsTolerable) {qualifiers : List Text}
    (hqualifiers : ∀ qualifier ∈ qualifiers, IsQualifier qualifier)
    (hnodup : qualifiers.Nodup) (hapex : "apex".toList ∈ qualifiers) :
    Xml.read ('<' ::
      (pageRoot ++ (qualifiers.flatMap (fun qualifier => (declarationOf qualifier).source) ++
      tag.left))) =
      .ok ⟨Xml.expandedName pageRoot, Xml.expandedAttributes tag.head, []⟩ := by
  have hdeclared : tag.head.qualifiers ⊆ qualifiers := by
    rw [qualifiers_head h]
    simpa using hapex
  have hroot : tag.head.tag = pageRoot := h.root
  let sources := qualifiers.map (fun qualifier => (declarationOf qualifier).source) ++
    tag.attributes.map (·.attribute.quoted escapeMarks)
  have hwritten : List.Forall₂ Xml.IsWritten sources
    (tag.head.declaring qualifiers).attributes := by
    refine List.rel_append ?_ ?_
    · rw [List.forall₂_map_left_iff, List.forall₂_map_right_iff, List.forall₂_same]
      exact fun qualifier hqualifier =>
        (Xml.isReadable_declarationOf (hqualifiers qualifier hqualifier)).isWritten
    · rw [LooseTag.head, List.forall₂_map_left_iff, List.forall₂_map_right_iff, List.forall₂_same]
      exact fun attr hattr => isWritten_quoted h hattr
  have hleft : qualifiers.flatMap (fun qualifier => (declarationOf qualifier).source) ++ tag.left =
    sources.flatten ++
      ((if tag.attributes.isEmpty then tag.gap else []) ++
        (tagEnd tag.closes ++ pageEnd tag.closes)) := by
    simp [sources, LooseTag.left, List.flatMap_def]
  rw [hleft, ← hroot]
  refine Xml.read_tag (pageEnd tag.closes) h.isReadBack hqualifiers hnodup hdeclared tag.closes
    (fun opening =>
    Xml.startTag_written opening h.isReadBack.spelling hwritten (isSpace_of_isEmpty h) tag.closes _)
      ?_
  cases tag.closes with
  | true => rfl
  | false =>
    have hend : pageEnd false = '<' :: '/' :: (pageRoot ++ '>' :: []) := by decide
    rw [if_neg Bool.false_ne_true, hend, Xml.content_closing isUsable_pageRoot.spelling
      (by rw [← hroot]; rfl)]
    rfl

theorem trim_page (tag : LooseTag) : Text.trim (withoutMarks tag.page) = tag.page := by
  refine trim_withoutMarks rfl ?_
  have hsource : tag.page = '<' :: (tag.name ++ (attributesSource tag.attributes ++ tag.gap)) ++
      (tagEnd tag.closes ++ pageEnd tag.closes) := by
    simp [LooseTag.page, LooseTag.source]
  have hend : (tagEnd tag.closes ++ pageEnd tag.closes).getLast? = some '>' := by
    cases tag.closes <;> decide
  rw [hsource, List.getLast?_append, hend]
  rfl

/-- The name of the root ends before its attributes, a space or the end of the tag. -/
theorem head?_left (h : tag.IsTolerable) :
    ∀ c ∈ tag.left.head?, c ∈ [' ', '\t', '\n', '\r', '/', '>'] := by
  rw [LooseTag.left]
  cases hattributes : tag.attributes with
  | cons attr attributes =>
    rintro c ⟨⟩
    decide
  | nil =>
    rw [List.flatMap_nil, List.nil_append, List.isEmpty_nil, if_pos rfl]
    cases hgap : tag.gap with
    | cons c gap =>
      rintro d ⟨⟩
      have hspace := h.gap hattributes c (hgap ▸ List.mem_cons_self)
      simp only [Xml.isSpace, Bool.or_eq_true, beq_iff_eq] at hspace
      simp only [List.mem_cons]
      tauto
    | nil => cases tag.closes <;> rintro c ⟨⟩ <;> decide

/-- Where nothing else is declared for the root, its names are turned back and its values
trimmed. -/
theorem element_loose (h : tag.IsTolerable) {qualifiers : List Text}
    (hapex : "apex".toList ∈ qualifiers)
    {others : List (Text × Text)} (hothers : ∀ entry ∈ others, entry.2 ≠ "urn:apex".toList) :
    (Conversion.mk (declaredBy qualifiers ++ others) true).element
      ⟨Xml.expandedName pageRoot, Xml.expandedAttributes tag.head, []⟩ =
        ⟨tag.head.trimmed, []⟩ := by
  let declared := declaredBy qualifiers ++ others
  have hroot : qualify declared (Xml.expandedName pageRoot) = tag.name := by
    rw [qualify_around List.mem_cons_self hapex hothers pageRoot List.mem_cons_self, h.root]
  have hattributes : ∀ attr ∈ tag.attributes,
    (⟨qualify declared (Xml.expandedName attr.name), Text.trim attr.value⟩ :
      Attribute) = attr.attribute.trimmed := by
    intro attr hattr
    rw [Xml.expandedName, Xml.spelled_simple (h.isPart hattr)]
    rfl
  have hmap : (Xml.expandedAttributes tag.head).map
    (fun entry => (⟨qualify declared entry.1, Text.trim entry.2⟩ : Attribute)) =
      tag.head.attributes.map Attribute.trimmed := by
    rw [Xml.expandedAttributes, LooseTag.head, List.map_map, List.map_map, List.map_map]
    exact List.map_congr_left hattributes
  exact congrArg (Element.mk · []) (congrArg₂ Head.mk hroot hmap)

/-- A loosely written page is built into an element with its attributes in the order written, their
values trimmed. -/
theorem build_loose (h : tag.IsTolerable) : build Config.standard tag.page =
    .ok ⟨tag.head.trimmed, []⟩ := by
  let source := '<' :: (pageRoot ++ tag.left)
  let qualifiers := undeclared source
  let prepared := '<' :: (pageRoot ++
    (qualifiers.flatMap (fun qualifier => (declarationOf qualifier).source) ++ tag.left))
  have hstops : StopsWord tag.left := fun c hc =>
    (by decide : ∀ c ∈ [' ', '\t', '\n', '\r', '/', '>'], c ∉ "xmlns".toList.tail) c
    (head?_left h c hc)
  have hafter : ∀ c ∈ tag.left.head?, isTagNameChar c = false := fun c hc =>
    (by decide : ∀ c ∈ [' ', '\t', '\n', '\r', '/', '>'], isTagNameChar c = false) c
    (head?_left h c hc)
  have hmarks : ∀ mark ∈ rootMarks, ¬ mark <:+: source := marks_left h
  have hqualifiers : ∀ qualifier ∈ qualifiers, IsQualifier qualifier :=
    isQualifier_of_mem_undeclared (misnamed_left h)
  have hapex : "apex".toList ∈ qualifiers := mem_undeclared hmarks
  have hprepared : prepare Config.standard tag.page = prepared := by
    have hboolean : Config.standard.allowBooleanAttributes = true := rfl
    rw [prepare, trim_page, wrapOpaque_page h, hboolean, normalizeOutsideSections_page h]
    exact declareQualifiers_tag isUsable_pageRoot.spelling hafter
  have hread := read_left h hqualifiers ((nodup_dedupe _).filter _) hapex
  -- what looks like a declaration in a value is not one for the root
  obtain ⟨others, hdeclarations, hothers⟩ :=
    declarations_root (by decide +kernel : ¬ "xmlns".toList <:+: '<' :: pageRoot) hstops hqualifiers
  have hspaces : ∀ entry ∈ others.map declaredAt, entry.2 ≠ "urn:apex".toList := by
    refine List.forall_mem_map.mpr fun hit hmem => ?_
    obtain ⟨there, hthere, hmatch⟩ := hothers hit hmem
    have hsuffix : tag.left <:+ source := ⟨'<' :: pageRoot, by simp [source]⟩
    exact (declaredAt_ne hmarks (hthere.trans hsuffix) hmatch).2
  have htree := element_loose h hapex hspaces
  have hdepth : ¬ depthLimit < (⟨Xml.expandedName pageRoot, Xml.expandedAttributes tag.head, []⟩ :
    Xml.Element).depth :=
    (by decide : ¬ depthLimit < 1)
  have htrimmed : Config.standard.trimValues = true := rfl
  have hroot : Config.standard.rootTags.contains tag.head.trimmed.tag = true := by
    have htag : tag.head.trimmed.tag = pageRoot := h.root
    rw [htag]
    decide
  rw [build, hprepared, hread]
  simp only [if_neg hdepth, htrimmed, prepared, hdeclarations, htree]
  exact if_pos hroot

/-- One attribute for each way of writing. -/
def mixedTag : LooseTag where
  name := pageRoot
  attributes :=
    [⟨"\n  ".toList, "title".toList, some ⟨[], [], some '"', " a < b && c > 'd' ".toList⟩⟩,
      ⟨[' '], "on_click".toList, some ⟨[' '], ['\t'], some '\'', "say(\"R&D\")".toList⟩⟩,
      ⟨[' '], "data-id".toList, some ⟨[], [' '], none, "x/&y/".toList⟩⟩,
      ⟨[' '], "rendered".toList, none⟩]
  gap := [' ']
  closes := true

theorem build_mixedTag : mixedTag.IsTolerable ∧ mixedTag.page =
    "<apex:page\n  title=\" a < b && c > 'd' \"".toList ++
      " on_click =\t'say(\"R&D\")' data-id= x/&y/ rendered />".toList ∧
      build Config.standard mixedTag.page =
        .ok ⟨⟨pageRoot,
          [⟨"title".toList, "a < b && c > 'd'".toList⟩, ⟨"on_click".toList, "say(\"R&D\")".toList⟩,
          ⟨"data-id".toList, "x/&y/".toList⟩,
        ⟨"rendered".toList, "true".toList⟩]⟩, []⟩ := by
  have hblank : ∀ {text : Text}, text.all Text.isBlank → ∀ c ∈ text, Text.isBlank c :=
    List.all_eq_true.mp
  have hloose : mixedTag.IsLoose := by
    refine ⟨by decide, ?_, hblank (by decide), by rintro ⟨⟩⟩
    refine List.forall_mem_cons.mpr ⟨?_, List.forall_mem_cons.mpr ⟨?_, List.forall_mem_cons.mpr ⟨?_,
      List.forall_mem_singleton.mpr ?_⟩⟩⟩
    · refine ⟨⟨by decide, hblank (by decide)⟩, ⟨by decide, by decide⟩, ?_⟩
      rintro _ ⟨⟩
      exact ⟨by simp, by simp, by rintro _ ⟨⟩; decide, by rintro ⟨⟩⟩
    · refine ⟨⟨by decide, hblank (by decide)⟩, ⟨by decide, by decide⟩, ?_⟩
      rintro _ ⟨⟩
      exact ⟨hblank (by decide), hblank (by decide), by rintro _ ⟨⟩; decide, by rintro ⟨⟩⟩
    · refine ⟨⟨by decide, hblank (by decide)⟩, ⟨by decide, by decide⟩, ?_⟩
      rintro _ ⟨⟩
      exact ⟨by simp, hblank (by decide), by rintro _ ⟨⟩, fun _ => by decide⟩
    · exact ⟨⟨by decide, hblank (by decide)⟩, ⟨by decide, by decide⟩, by rintro _ ⟨⟩⟩
  have htolerable : mixedTag.IsTolerable := by
    refine ⟨hloose, rfl, by decide, by decide, ?_, by rintro ⟨⟩⟩
    refine List.forall_mem_cons.mpr ⟨?_, List.forall_mem_cons.mpr ⟨?_, List.forall_mem_cons.mpr ⟨?_,
      List.forall_mem_singleton.mpr ?_⟩⟩⟩
    all_goals exact ⟨by decide, by decide +kernel, by decide, by decide⟩
  exact ⟨htolerable, by decide, build_loose htolerable⟩

/-- A tag without attributes, and before its end a blank that documents do not know. -/
def blankTag : LooseTag := ⟨pageRoot, [], ['\u00a0'], true⟩

/-- Such a tag is not brought into normal form. -/
theorem build_blankTag : blankTag.IsLoose ∧ blankTag.page = "<apex:page\u00a0/>".toList ∧
    (build Config.standard blankTag.page).toOption.isNone := by
  have hblank : ∀ c ∈ blankTag.gap, Text.isBlank c := List.forall_mem_singleton.mpr (by decide)
  exact ⟨⟨by decide, List.forall_mem_nil _, hblank, by rintro ⟨⟩⟩, by decide, by decide +kernel⟩

/-- An ampersand before a number in the digits of another script begins no reference of a document,
but it is left alone as if it did. -/
example : (Xml.reference [] "#\u0663;".toList).toOption.isNone ∧
    (build Config.standard "<apex:page a=\"&#\u0663;\"/>".toList).toOption.isNone := by
  decide +kernel

end Visualforce.Markup
