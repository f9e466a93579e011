import Visualforce.Proofs.Markup.Prepared

/-! # Building the trees of clear pages

Prepared, read as a document and converted, a page gives the tree that it was written from, whatever
encoding its values and texts were written in.
-/
namespace Visualforce.Markup
open Xml (expandedName expandedAttributes documentMaker encodedSource)

variable {encode : Text → Text} {page : Written} {head : Head} {closes : Bool}
    {children : List Written}

theorem headsOf_encoded (encode : Text → Text) (tokens : List Token) :
    headsOf (tokens.map (Token.encoded encode)) = (headsOf tokens).map (Head.encoded encode) := by
  induction tokens with
  | nil => rfl
  | cons token tokens ih => cases token <;> simp [Token.encoded, ih]

/-- Wrapping leaves a page without opaque elements as it is. -/
theorem wrapOpaque_readBack {tokens : List Token}
    (h : ∀ token ∈ tokens, token.IsReadBack encode ∧ token.IsTransparent) :
    wrapOpaque Config.standard.opaqueTags (encodedSource encode tokens) =
      encodedSource encode tokens := by
  refine wrapOpaque_sourceOf fun raw hraw => ?_
  obtain ⟨token, htoken, rfl⟩ := List.mem_map.mp hraw
  exact ⟨(h token htoken).1.isClear, (token.isTransparent_encoded encode).mpr (h token htoken).2⟩

theorem wrapOpaque_encodedSource {tokens : List Token}
    (h : ∀ token ∈ tokens, token.IsSpelledBy encode ∧ token.IsTransparent) :
    wrapOpaque Config.standard.opaqueTags (encodedSource encode tokens) =
      encodedSource encode tokens :=
  wrapOpaque_readBack fun token htoken => (h token htoken).imp_left Token.IsSpelledBy.isReadBack

theorem headsOf_closingOf (head : Head) (closes : Bool) : headsOf (closingOf head closes) = [] := by
  cases closes <;> rfl

theorem getLast?_tag {token : Token} (h : ∀ content, token ≠ .text content) :
    (token.encoded encode).source.getLast? = some '>' := by
  have hlast : ∀ text : Text, (text ++ ['>']).getLast? = some '>' := fun text => by simp
  cases token with
  | text content => exact absurd rfl (h content)
  | opening head closes =>
    have hsource : ((Token.opening head closes).encoded encode).source =
        '<' :: head.tag ++ (head.encoded encode).attributeSource ++ slash closes ++ ['>'] := by
      simp [Token.encoded, Token.source, tagEnd, Head.encoded]
    rw [hsource]
    exact hlast _
  | closing tag => exact hlast ('<' :: '/' :: tag)

/-- A page ends with the end of a tag. -/
theorem getLast?_encodedSource (hhead : page.head? = some head) :
    (encodedSource encode page.tokens).getLast? = some '>' := by
  obtain ⟨tokens, last, htokens, htag⟩ := exists_last_tag hhead
  rw [htokens, Xml.encodedSource_append, List.getLast?_append, Xml.encodedSource_cons,
    Xml.encodedSource_nil, List.append_nil, getLast?_tag htag]
  rfl

/-- What has been read becomes the tree of the page when the declarations in the prepared text are
those that its names were read with. -/
theorem build_of_read {text prepared : Text} {qualifiers : List Text}
    (hhead : page.head? = some head) (hspelled : head.IsReadBack encode)
    (hchildren : ∀ token ∈ tokensOf page.children, token.IsReadBack encode)
    (hdeclared : head.qualifiers ⊆ qualifiers)
    (hinside : ∀ inner ∈ headsOf (tokensOf page.children), inner.qualifiers ⊆ qualifiers)
    (hroot : Config.standard.rootTags.contains head.tag = true) (hdepth : page.depth ≤ depthLimit)
    (hprepared : prepare Config.standard text = prepared)
    (hnames : declarations prepared = declaredBy qualifiers)
    (hread : Xml.read prepared = .ok ⟨expandedName head.tag, expandedAttributes head,
      (forestOf documentMaker page.children).all documentMaker⟩) :
    build Config.standard text = .ok (page.trimmed.tree head.trimmed) := by
  have htree := element_pageConversion hspelled hchildren hdeclared hinside
  have hlisted : Config.standard.rootTags.contains (page.trimmed.tree head.trimmed).head.tag =
    true := hroot
  rw [build, hprepared, hread]
  simp only [depth_document hhead, if_neg (Nat.not_lt.mpr hdepth), hnames]
  rw [← htree] at hlisted ⊢
  exact if_pos hlisted

/-- A page is built into the tree that it was written from, with the blanks around its values
trimmed. -/
theorem build_readBack (hhead : page.head? = some head)
    (h : ∀ token ∈ page.tokens, token.IsReadBack encode)
    (hwrap : wrapOpaque Config.standard.opaqueTags (encodedSource encode page.tokens) =
      encodedSource encode page.tokens)
    (hroot : Config.standard.rootTags.contains head.tag = true) (hdepth : page.depth ≤ depthLimit)
    (hdeclares : ∀ closes tokens, page.tokens = .opening head closes :: tokens →
      DeclaresAtRoot head.tag
        (afterRoot (head.encoded encode) closes (tokens.map (Token.encoded encode)))) :
    build Config.standard (encodedSource encode page.tokens) =
      .ok (page.trimmed.tree head.trimmed) := by
  obtain ⟨closes, htokens, hclosed⟩ := tokens_of_head? hhead
  let raws := (tokensOf page.children ++ closingOf head closes).map (Token.encoded encode)
  let qualifiers := qualifiersOf (.opening (head.encoded encode) closes :: raws)
  have hclear : ∀ token ∈ Token.opening (head.encoded encode) closes :: raws, token.IsClear := by
    have hall : ∀ token ∈ page.tokens.map (Token.encoded encode), token.IsClear :=
      fun token hmem => by
      obtain ⟨decoded, hdecoded, rfl⟩ := List.mem_map.mp hmem
      exact (h decoded hdecoded).isClear
    rwa [htokens] at hall
  have hdeclared : ∀ inner ∈ headsOf page.tokens, inner.qualifiers ⊆ qualifiers := by
    intro inner hmem
    have hraw : inner.encoded encode ∈ headsOf (page.tokens.map (Token.encoded encode)) := by
      rw [headsOf_encoded]
      exact List.mem_map_of_mem hmem
    rw [htokens] at hraw
    rw [← Head.qualifiers_encoded encode inner]
    exact qualifiers_subset_qualifiersOf hraw
  have hsource : encodedSource encode page.tokens =
      sourceOf (.opening (head.encoded encode) closes :: raws) := by
    rw [htokens]
    rfl
  have hlast : (sourceOf (.opening (head.encoded encode) closes :: raws)).getLast? = some '>' := by
    rw [← hsource]
    exact getLast?_encodedSource hhead
  have hprepared :
    prepare Config.standard (sourceOf (.opening (head.encoded encode) closes :: raws)) =
      sourceOf (.opening ((head.encoded encode).declaring qualifiers) closes :: raws) :=
    prepare_sourceOf hclear (hsource ▸ hwrap) (hdeclares closes _ htokens) hlast
  have hqualifiers : ∀ qualifier ∈ qualifiers, IsQualifier qualifier :=
    isQualifier_of_mem_qualifiersOf hclear
  have hnames :
    declarations (sourceOf (.opening ((head.encoded encode).declaring qualifiers) closes :: raws)) =
      declaredBy qualifiers := by
    rw [sourceOf_root, afterRoot_declaring]
    exact hdeclares closes _ htokens qualifiers hqualifiers
  rw [htokens, List.forall_mem_cons, List.forall_mem_append] at h
  obtain ⟨hspelled, hchildren, -⟩ := h
  rw [htokens, headsOf_opening, headsOf_append, headsOf_closingOf, List.append_nil,
    List.forall_mem_cons] at hdeclared
  rw [hsource]
  exact build_of_read hhead hspelled hchildren hdeclared.1 hdeclared.2 hroot hdepth hprepared hnames
    (Xml.read_page hclosed hspelled hchildren hqualifiers (nodup_dedupe _) hdeclared.1 hdeclared.2)

/-- A page with trimmed values is built into the tree that it was written from. -/
theorem build_encoded (hhead : page.head? = some head)
    (h : ∀ token ∈ page.tokens, token.IsSpelledBy encode)
    (hwrap : wrapOpaque Config.standard.opaqueTags (encodedSource encode page.tokens) =
      encodedSource encode page.tokens)
    (hroot : Config.standard.rootTags.contains head.tag = true) (hdepth : page.depth ≤ depthLimit)
    (hdeclares : ∀ closes tokens, page.tokens = .opening head closes :: tokens →
      DeclaresAtRoot head.tag
        (afterRoot (head.encoded encode) closes (tokens.map (Token.encoded encode)))) :
    build Config.standard (encodedSource encode page.tokens) = .ok (page.tree head) := by
  have hvalues : ∀ inner ∈ headsOf page.tokens, ∀ attr ∈ inner.attributes,
    Text.IsTrimmed attr.value :=
    forall_mem_headsOf fun _ _ hmem attr hattr => (Head.IsSpelledBy.values (h _ hmem) attr hattr).1
  obtain ⟨closes, htokens, -⟩ := tokens_of_head? hhead
  have hmem : head ∈ headsOf page.tokens := by
    rw [htokens]
    exact List.mem_cons_self
  rw [build_readBack hhead (fun token htoken => (h token htoken).isReadBack) hwrap hroot hdepth
    hdeclares, page.trimmed_of_values hvalues, Head.trimmed_of_values (hvalues head hmem)]

end Visualforce.Markup
