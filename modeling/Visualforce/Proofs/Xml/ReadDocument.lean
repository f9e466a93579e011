import Visualforce.Markup.Namespace
import Visualforce.Proofs.Xml.ReadElement

/-! # Reading written pages

A page whose root declares the qualifiers of its names is read as a document: every name belongs to
the namespace that its qualifier was declared for, and the declarations are no attributes.
-/
namespace Visualforce.Markup

def declarationOf (qualifier : Text) : Attribute :=
  ⟨"xmlns:".toList ++ qualifier, "urn:".toList ++ qualifier⟩

theorem name_declarationOf (qualifier : Text) :
    (declarationOf qualifier).name = "xmlns".toList ++ ':' :: qualifier := by
  have hname : "xmlns:".toList = "xmlns".toList ++ [':'] := by decide
  calc (declarationOf qualifier).name = "xmlns:".toList ++ qualifier := rfl
    _ = "xmlns".toList ++ ':' :: qualifier := by
      rw [hname, List.append_assoc, List.singleton_append]

def Head.declaring (qualifiers : List Text) (head : Head) : Head :=
  ⟨head.tag, qualifiers.map declarationOf ++ head.attributes⟩

theorem source_declaring (qualifiers : List Text) (head : Head) (closes : Bool) :
    (Token.opening (head.declaring qualifiers) closes).source =
      ('<' :: head.tag ++ qualifiers.flatMap fun qualifier => (declarationOf qualifier).source) ++
        (head.attributeSource ++ tagEnd closes) := by
  simp [Token.source, Head.declaring, Head.attributeSource, List.flatMap_map]

theorem isSpelling_declarationOf {qualifier : Text} (h : IsQualifier qualifier) :
    IsSpelling (declarationOf qualifier).name :=
  name_declarationOf qualifier ▸ .qualified (by decide) h.part

end Visualforce.Markup

namespace Visualforce.Xml
open Markup

variable {entities : Entities} {opening rest : Text} {scope : Scope} {qualifiers : List Text}
variable {encode : Text → Text} {head : Head}

/-- The scope inside a root that declares some qualifiers. -/
def pageScope (qualifiers : List Text) : Scope :=
  (qualifiers.map fun qualifier => (some qualifier, "urn:".toList ++ qualifier)).reverse ++
    Scope.initial

theorem ne_of_isReservedQualifier {qualifier : Text} (h : isReservedQualifier qualifier = false) :
    qualifier ≠ "xml".toList ∧ qualifier ≠ "xmlns".toList := by
  constructor
  · rintro rfl
    exact absurd h (by decide)
  · rintro rfl
    exact absurd h (by decide)

/-- The namespace of a page's qualifier is none of the reserved ones. -/
theorem urn_ne {space : Text} (h : space.head? = some 'h') (qualifier : Text) :
    "urn:".toList ++ qualifier ≠ space := by
  rintro rfl
  have hurn : "urn:".toList = ['u', 'r', 'n', ':'] := by decide
  rw [hurn, List.cons_append, List.head?_cons] at h
  exact absurd h (by decide)

theorem bindingFault?_of_isQualifier {qualifier : Text} (h : IsQualifier qualifier) :
    bindingFault? (some qualifier) ("urn:".toList ++ qualifier) = none := by
  obtain ⟨hxml, hxmlns⟩ := ne_of_isReservedQualifier h.free
  have hfilled : ("urn:".toList ++ qualifier).isEmpty = false := by
    rw [← Bool.not_eq_true, List.isEmpty_iff, List.append_eq_nil_iff, not_and_or]
    exact .inl (by decide)
  have hbrace : ("urn:".toList ++ qualifier).contains '}' = false := by
    rw [← Bool.not_eq_true, List.contains_iff_mem, List.mem_append, not_or]
    exact ⟨by decide, not_mem_of_isPart h.part (by decide)⟩
  have hspace : ("urn:".toList ++ qualifier == xmlSpace) = false :=
    beq_false_of_ne (urn_ne (by decide) qualifier)
  have hspace' : ("urn:".toList ++ qualifier == xmlnsSpace) = false :=
    beq_false_of_ne (urn_ne (by decide) qualifier)
  rw [bindingFault?, hfilled, hbrace, hspace, hspace', beq_false_of_ne (by simpa using hxmlns),
    beq_false_of_ne (by simpa using hxml)]
  simp

theorem lookup_of_forall {α β : Type} [BEq α] [LawfulBEq α] {entries : List (α × β)} {key : α}
    {value : β}
    (hmem : ∃ entry ∈ entries, entry.1 = key)
    (hall : ∀ entry ∈ entries, entry.1 = key → entry.2 = value) :
    entries.lookup key = some value := by
  induction entries with
  | nil => simp at hmem
  | cons entry entries ih =>
    obtain ⟨hentry, hentries⟩ := List.forall_mem_cons.mp hall
    rw [List.lookup_cons]
    by_cases heq : entry.1 = key
    · rw [heq, beq_self_eq_true, hentry heq]
    · rw [beq_false_of_ne (Ne.symm heq)]
      obtain ⟨other, hother, hkey⟩ := hmem
      rcases List.mem_cons.mp hother with rfl | hother
      · exact absurd hkey heq
      · exact ih ⟨other, hother, hkey⟩ hentries

theorem lookup_pageScope {qualifier : Text} (h : qualifier ∈ qualifiers) :
    (pageScope qualifiers).lookup (some qualifier) = some ("urn:".toList ++ qualifier) := by
  rw [pageScope, List.lookup_append, lookup_of_forall]
  · rfl
  · exact ⟨_, List.mem_reverse.mpr (List.mem_map_of_mem h), rfl⟩
  · intro entry hentry heq
    obtain ⟨other, -, rfl⟩ := List.mem_map.mp (List.mem_reverse.mp hentry)
    rw [Option.some.inj heq]

theorem lookup_pageScope_none : (pageScope qualifiers).lookup none = none := by
  rw [List.lookup_eq_none_iff]
  intro entry hentry
  rcases List.mem_append.mp hentry with hentry | hentry
  · obtain ⟨other, -, rfl⟩ := List.mem_map.mp (List.mem_reverse.mp hentry)
    rfl
  · rw [List.mem_singleton.mp hentry]
    rfl

theorem binds_pageScope (qualifiers : List Text) : (pageScope qualifiers).Binds qualifiers :=
  ⟨fun _ => lookup_pageScope, lookup_pageScope_none⟩

/-- The declarations of a root go to the scope, and its other attributes are left. -/
theorem separate_declarations (entities : Entities) (opening : Text) (scope : Scope)
    {plain : List Attribute} {written : List WrittenAttribute}
    (hreads : List.Forall₂ Reads (qualifiers.map declarationOf ++ plain) written)
    (hqualifiers : ∀ qualifier ∈ qualifiers, IsQualifier qualifier) (hnodup : qualifiers.Nodup)
    {seen : List WrittenName}
    (hseen : ∀ qualifier ∈ qualifiers, (⟨some "xmlns".toList, qualifier⟩ : WrittenName) ∉ seen)
    (others : List (WrittenName × Text)) : ∃ more, List.Forall₂ Reads plain more ∧
      separate entities opening written seen scope others =
        separate entities opening more
          ((qualifiers.map fun qualifier =>
            (⟨some "xmlns".toList, qualifier⟩ : WrittenName)).reverse ++ seen)
          ((qualifiers.map fun qualifier => (some qualifier, "urn:".toList ++ qualifier)).reverse ++
            scope)
          others := by
  induction qualifiers generalizing scope written seen with
  | nil => exact ⟨written, hreads, rfl⟩
  | cons qualifier qualifiers ih =>
    obtain _ | @⟨_, first, _, written, hread, hreads⟩ := hreads
    obtain ⟨hqualifier, hqualifiers⟩ := List.forall_mem_cons.mp hqualifiers
    obtain ⟨hfresh, hseen⟩ := List.forall_mem_cons.mp hseen
    rw [List.nodup_cons] at hnodup
    have hname : first.name = ⟨some "xmlns".toList, qualifier⟩ := by
      rw [hread.name, name_declarationOf, spelled_qualified (by decide)]
    have hbinds : first.name.binds? = some (some qualifier) := by
      simp [WrittenName.binds?, hname]
    have hvalue : resolveValue entities opening first.value = .ok ("urn:".toList ++ qualifier) := by
      exact resolveValue_of_stands _ _ hread.value
    have hseen' : ∀ other ∈ qualifiers,
        (⟨some "xmlns".toList, other⟩ : WrittenName) ∉ first.name :: seen := by
      intro other hother
      refine List.not_mem_cons_of_ne_of_not_mem (fun heq => hnodup.1 ?_) (hseen other hother)
      rw [hname] at heq
      have hbase : other = qualifier := congrArg WrittenName.base heq
      exact hbase ▸ hother
    obtain ⟨more, hmore, hrest⟩ := ih ((some qualifier, "urn:".toList ++ qualifier) :: scope) hreads
      hqualifiers hnodup.2 hseen'
    refine ⟨more, hmore, ?_⟩
    rw [separate, hname, if_neg (by simpa using hfresh), hvalue, ok_bind, ← hname, hbinds]
    dsimp only
    rw [bindingFault?_of_isQualifier hqualifier]
    dsimp only
    rw [hrest, hname]
    simp

/-- The root of a page is opened in the scope of its declarations. -/
theorem openElement_root (entities : Entities) (opening : Text) (h : head.IsReadBack encode)
    (hqualifiers : ∀ qualifier ∈ qualifiers, IsQualifier qualifier) (hnodup : qualifiers.Nodup)
    (hdeclared : head.qualifiers ⊆ qualifiers) {written : List WrittenAttribute}
    (hreads : List.Forall₂ Reads (head.declaring qualifiers).attributes written) (closes : Bool) :
    openElement entities Scope.initial opening ⟨spelled head.tag, written, closes⟩ =
      .ok (openedBy (pageScope qualifiers) head) := by
  obtain ⟨plain, hplain, hseparate⟩ := separate_declarations entities opening Scope.initial hreads
    hqualifiers hnodup (fun _ _ => List.not_mem_nil) []
  have hseen : ∀ attr ∈ head.attributes, spelled attr.name ∉ (qualifiers.map fun qualifier =>
      (⟨some "xmlns".toList, qualifier⟩ : WrittenName)).reverse ++ [] := by
    intro attr hattr hmem
    rw [List.append_nil, List.mem_reverse] at hmem
    obtain ⟨qualifier, -, heq⟩ := List.mem_map.mp hmem
    have hfree := (h.names attr hattr).1.free "xmlns".toList (by simp [qualifierOf, ← heq])
    exact absurd hfree (by decide)
  rw [← pageScope] at hseparate
  exact openElement_of_separate h (binds_pageScope qualifiers) hdeclared closes
    (hseparate.trans (separate_usable hplain h.names h.distinct hseen []))

theorem isValueChar_of_isPartChar {c : Char} (h : isPartChar c) : isValueChar c := by
  obtain ⟨hlegal, hlow⟩ := isLegal_of_isNameChar (isNameChar_of_isPartChar h)
  have hmarks : ∀ mark ∈ "<&\"".toList, isPartChar mark = false := by decide
  have hnot : "<&\"".toList.contains c = false := by
    rw [← Bool.not_eq_true, List.contains_iff_mem]
    exact fun hmem => ne_of_isPartChar h (hmarks c hmem) rfl
  rw [isValueChar, hlegal, decide_eq_true hlow, hnot]
  rfl

theorem isReadable_declarationOf {qualifier : Text} (h : IsQualifier qualifier) :
    IsReadable (declarationOf qualifier) (declarationOf qualifier) := by
  refine ⟨rfl, isSpelling_declarationOf h, .of_all ?_⟩
  exact List.forall_mem_append.mpr
    ⟨by decide, fun c hc => isValueChar_of_isPartChar (forall_mem_of_isPart h.part c hc)⟩

theorem isReadable_declaring (h : head.IsReadBack encode)
    (hqualifiers : ∀ qualifier ∈ qualifiers, IsQualifier qualifier) :
    List.Forall₂ IsReadable ((head.encoded encode).declaring qualifiers).attributes
      (head.declaring qualifiers).attributes := by
  refine List.rel_append ?_ (isReadable_encoded h)
  refine List.forall₂_same.mpr fun attr hattr => ?_
  obtain ⟨qualifier, hqualifier, rfl⟩ := List.mem_map.mp hattr
  exact isReadable_declarationOf (hqualifiers qualifier hqualifier)

/-- The prolog ends where a tag begins. -/
theorem prologFrom_tag {c : Char} (hc : isTagNameStart c) (more : Text) (fuel : Nat)
    (isFirst : Bool) (setup : Setup) : prologFrom (fuel + 1) isFirst setup ('<' :: c :: more) =
      .ok (setup, '<' :: c :: more) := by
  have hmark : mark ('<' :: c :: more) = .ok (.element, c :: more) := by
    have hopen : mayOpenElement c := by simp [mayOpenElement, isNameStart_of_isTagNameStart hc]
    rw [mark]
    · simp [hopen]
    all_goals
      rintro after heq
      obtain ⟨rfl, -⟩ := List.cons_eq_cons.mp heq
      exact absurd hc (by decide)
  rw [prologFrom]
  · rw [hmark]
    rfl
  · simp

theorem stepsAt_le {token : Token} (h : token.IsReadBack encode) :
    stepsAt token ≤ (token.encoded encode).source.length := by
  cases token with
  | text content => exact Spells.length_le h
  | opening head closes => simp [stepsAt, Token.encoded, Token.source]
  | closing tag => simp [stepsAt, Token.encoded, Token.source]

theorem stepsOf_le {tokens : List Token} (h : ∀ token ∈ tokens, token.IsReadBack encode) :
    stepsOf tokens ≤ (encodedSource encode tokens).length := by
  induction tokens with
  | nil => rfl
  | cons token tokens ih =>
    obtain ⟨htoken, htokens⟩ := List.forall_mem_cons.mp h
    rw [stepsOf, encodedSource_cons, List.length_append]
    exact Nat.add_le_add (stepsAt_le htoken) (ih htokens)

/-- A root tag is read in the scope of its declarations, and then what it holds, if anything. -/
theorem rootElement_tag {left : Text} (rest : Text) (h : head.IsReadBack encode)
    (hqualifiers : ∀ qualifier ∈ qualifiers, IsQualifier qualifier) (hnodup : qualifiers.Nodup)
    (hdeclared : head.qualifiers ⊆ qualifiers) (closes : Bool)
    (hstart : ∀ opening, ∃ written, List.Forall₂ Reads (head.declaring qualifiers).attributes
    written ∧
      startTag opening (head.tag ++ left) = .ok (⟨spelled head.tag, written, closes⟩, rest)) :
    rootElement ⟨[], false⟩ ('<' :: (head.tag ++ left)) =
      if closes then .ok (⟨expandedName head.tag, expandedAttributes head, []⟩, rest)
      else content ⟨[], false⟩ (rest.length + 1) [] ⟨openedBy (pageScope qualifiers) head, []⟩
        [] rest := by
  let document := '<' :: (head.tag ++ left)
  obtain ⟨written, hreads, hstart⟩ := hstart document
  have hopen : openElement ⟨[], false⟩ Scope.initial document ⟨spelled head.tag, written, closes⟩ =
      .ok (openedBy (pageScope qualifiers) head) :=
    openElement_root _ _ h hqualifiers hnodup hdeclared hreads closes
  have hdrop : document.drop 1 = head.tag ++ left := rfl
  rw [rootElement, hdrop, hstart, ok_bind]
  dsimp only
  rw [hopen, ok_bind]
  cases closes <;> rfl

/-- A document is its root element, when it has a plain prolog and what stands behind the root may
stand there. -/
theorem read_of_rootElement {document text rest : Text} {root : Element}
    (hmark : withoutMark document = document)
    (hprolog : prolog document = .ok (⟨false, none⟩, text))
    (hroot : rootElement ⟨[], false⟩ text = .ok (root, rest))
    (hepilog : epilog (rest.length + 1) rest = .ok ()) : read document = .ok root := by
  have hread : read document = rootElement ⟨[], false⟩ text >>= fun opened =>
      epilog (opened.2.length + 1) opened.2 >>= fun _ => .ok opened.1 := by
    rw [read, hmark, hprolog]
    rfl
  rw [hread, hroot, ok_bind, hepilog, ok_bind]

theorem read_tag {left : Text} (rest : Text) (h : head.IsReadBack encode)
    (hqualifiers : ∀ qualifier ∈ qualifiers, IsQualifier qualifier) (hnodup : qualifiers.Nodup)
    (hdeclared : head.qualifiers ⊆ qualifiers) (closes : Bool)
    (hstart : ∀ opening, ∃ written, List.Forall₂ Reads (head.declaring qualifiers).attributes
    written ∧
      startTag opening (head.tag ++ left) = .ok (⟨spelled head.tag, written, closes⟩, rest))
        {root : Element}
    (hroot : (if closes then .ok (⟨expandedName head.tag, expandedAttributes head, []⟩, rest)
      else content ⟨[], false⟩ (rest.length + 1) [] ⟨openedBy (pageScope qualifiers) head, []⟩
        [] rest) =
        .ok (root, [])) : read ('<' :: (head.tag ++ left)) = .ok root := by
  obtain ⟨c, more, htag, hc, -⟩ := h.spelling.exists_cons
  have helement := rootElement_tag rest h hqualifiers hnodup hdeclared closes hstart
  refine read_of_rootElement rfl ?_ (helement.trans hroot) rfl
  rw [htag]
  exact prologFrom_tag hc _ _ true _

theorem read_root (rest : Text) (h : head.IsReadBack encode)
    (hqualifiers : ∀ qualifier ∈ qualifiers, IsQualifier qualifier) (hnodup : qualifiers.Nodup)
    (hdeclared : head.qualifiers ⊆ qualifiers) (closes : Bool) {root : Element}
    (hroot : (if closes then .ok (⟨expandedName head.tag, expandedAttributes head, []⟩, rest)
      else content ⟨[], false⟩ (rest.length + 1) [] ⟨openedBy (pageScope qualifiers) head, []⟩
        [] rest) =
        .ok (root, [])) :
    read ((Token.opening ((head.encoded encode).declaring qualifiers) closes).source ++ rest) =
      .ok root := by
  let raw := (head.encoded encode).declaring qualifiers
  have hsource : (Token.opening raw closes).source ++ rest =
      '<' :: (raw.tag ++ (raw.attributeSource ++ (tagEnd closes ++ rest))) := by
    simp [Token.source]
  have hspelling : IsSpelling raw.tag := h.spelling
  rw [hsource]
  exact read_tag rest h hqualifiers hnodup hdeclared closes
    (fun opening => startTag_append opening hspelling (isReadable_declaring h hqualifiers)
      closes rest) hroot

theorem read_page {closes : Bool} {children : List Written}
    (hclosed : closes = true → children = [])
    (h : head.IsReadBack encode) (hchildren : ∀ token ∈ tokensOf children, token.IsReadBack encode)
    (hqualifiers : ∀ qualifier ∈ qualifiers, IsQualifier qualifier) (hnodup : qualifiers.Nodup)
    (hdeclared : head.qualifiers ⊆ qualifiers)
    (hinside : ∀ inner ∈ headsOf (tokensOf children), inner.qualifiers ⊆ qualifiers) :
    read ((Token.opening ((head.encoded encode).declaring qualifiers) closes).source ++
        encodedSource encode (tokensOf children ++ closingOf head closes)) =
      .ok ⟨expandedName head.tag, expandedAttributes head,
        (forestOf documentMaker children).all documentMaker⟩ := by
  refine read_root _ h hqualifiers hnodup hdeclared closes ?_
  cases closes with
  | true =>
    rw [hclosed rfl]
    rfl
  | false =>
    let after := encodedSource encode (tokensOf children) ++ '<' :: '/' :: (head.tag ++ '>' :: [])
    have hafter : encodedSource encode (tokensOf children ++ closingOf head false) = after := by
      simp [closingOf, after, Token.encoded, Token.source]
    have hle : stepsOf (tokensOf children) ≤ (encodedSource encode (tokensOf children)).length :=
      stepsOf_le hchildren
    have hfuel : after.length + 1 =
        stepsOf (tokensOf children) + (after.length - stepsOf (tokensOf children) + 1) := by
      simp only [after, List.length_append] at hle ⊢
      omega
    rw [if_neg (by decide), hafter, hfuel,
      content_forest children ⟨openedBy (pageScope qualifiers) head, []⟩
      _ hchildren (binds_pageScope qualifiers) hinside h.spelling rfl]
    rfl

end Visualforce.Xml
