import Visualforce.Proofs.Markup.Render

/-! # Building rendered trees

A rendering is a clear page whose values and texts are escaped, and it shows no declaration. So the
tree that it was made from is built from it.
-/
namespace Visualforce.Markup

variable {closes : Head → Bool}

theorem toNat_lt_of_isAsciiPartChar {c : Char} (h : isAsciiPartChar c) : c.toNat < 128 := by
  rw [isAsciiPartChar, Bool.or_eq_true, List.contains_iff_mem] at h
  rcases h with h | h
  · exact Text.toNat_lt_of_isAlphanum h
  · exact (by decide : ∀ c ∈ "_.-".toList, c.toNat < 128) c h

theorem isPartChar_of_isAsciiPartChar {c : Char} (h : isAsciiPartChar c) : isPartChar c = true :=
  Text.forall_ascii (fun c => isAsciiPartChar c → isPartChar c) (by decide +kernel)
    (toNat_lt_of_isAsciiPartChar h) h

theorem isAsciiPartChar_of_isTagNameStart {c : Char} (h : isTagNameStart c) :
    isAsciiPartChar c = true :=
  class_of_isTagNameStart isAsciiPartChar true (by decide) h

theorem isAsciiPartChar_of_mem {name : Text} (h : isAsciiPart name) :
    ∀ c ∈ name, isAsciiPartChar c := by
  cases name with
  | nil => simp
  | cons c rest =>
    simp only [isAsciiPart, Bool.and_eq_true, List.all_eq_true] at h
    exact List.forall_mem_cons.mpr ⟨isAsciiPartChar_of_isTagNameStart h.1, h.2⟩

theorem isPart_of_isAsciiPart {name : Text} (h : isAsciiPart name) : isPart name := by
  cases name with
  | nil => cases h
  | cons c rest =>
    simp only [isAsciiPart, isPart, Bool.and_eq_true, List.all_eq_true] at h ⊢
    exact ⟨h.1, fun d hd => isPartChar_of_isAsciiPartChar (h.2 d hd)⟩

namespace IsAsciiName

variable {name : Text}

theorem toNat_lt (h : IsAsciiName name) : ∀ c ∈ name, c.toNat < 128 := by
  have hpart : ∀ {part : Text}, isAsciiPart part → ∀ c ∈ part, c.toNat < 128 := fun hname c hc =>
    toNat_lt_of_isAsciiPartChar (isAsciiPartChar_of_mem hname c hc)
  cases h with
  | simple hbase => exact hpart hbase
  | qualified hqualifier _ hbase =>
    exact List.forall_mem_append.mpr
      ⟨hpart hqualifier, List.forall_mem_cons.mpr ⟨by decide, hpart hbase⟩⟩

theorem isUsable (h : IsAsciiName name) : IsUsable name := by
  cases h with
  | simple hbase =>
    have hpart := isPart_of_isAsciiPart hbase
    exact ⟨.simple hpart, by simp [qualifierOf_simple hpart]⟩
  | qualified hqualifier hreserved hbase =>
    have hpart := isPart_of_isAsciiPart hqualifier
    refine ⟨.qualified hpart (isPart_of_isAsciiPart hbase), ?_⟩
    rw [qualifierOf_qualified hpart, List.forall_mem_singleton]
    exact hreserved

end IsAsciiName

/-- A legal character that is not always written as a reference stands for itself, but for the
colon. -/
theorem isClearChar_of_lookup_eq_none {c : Char} (hlegal : Xml.isLegal c) (hcolon : c ≠ ':')
    (h : references.lookup c = none) : isClearChar c && 0x20 ≤ c.toNat := by
  have hne : ∀ entry ∈ references, c ≠ entry.1 := fun entry hentry =>
    bne_iff_ne.mp (List.lookup_eq_none_iff.mp h entry hentry)
  have hcontrol : ¬ c.toNat < 0x20 := by
    intro hlow
    rw [Xml.isLegal, if_pos hlow] at hlegal
    simp only [Bool.or_eq_true, beq_iff_eq] at hlegal
    have hcodes : ∀ n ∈ [0x09, 0x0A, 0x0D], ∃ entry ∈ references, entry.1.toNat = n := by decide
    obtain ⟨entry, hentry, hcode⟩ := hcodes c.toNat (by simpa [or_assoc] using hlegal)
    exact hne entry hentry (Char.toNat_inj.mp hcode.symm)
  have hmarks : ∀ mark ∈ "<&\"':>".toList, mark = ':' ∨ ∃ entry ∈ references, entry.1 = mark := by
    decide
  have hnot : "<&\"':>".toList.contains c = false := by
    rw [← Bool.not_eq_true, List.contains_iff_mem]
    intro hmem
    rcases hmarks c hmem with heq | ⟨entry, hentry, heq⟩
    · exact hcolon heq
    · exact hne entry hentry heq.symm
  have hreturn : c ≠ '\r' := hne ('\r', "&#13;".toList) (by decide)
  rw [isClearChar, hlegal, hnot, decide_eq_true (Nat.not_lt.mp hcontrol), bne_iff_ne.mpr hreturn]
  rfl

section
variable {text : Text} (h : IsRenderableText text)
include h

theorem IsRenderableText.spells_low : Spells (fun c => isClearChar c && 0x20 ≤ c.toNat)
    (escape text) text :=
  spells_escape fun c hc => by
    cases hlookup : references.lookup c with
    | some ref => exact .inr rfl
    | none =>
      exact .inl (isClearChar_of_lookup_eq_none (h.legal c hc) (ne_of_mem_of_not_mem hc h.colon)
        hlookup)

theorem IsRenderableText.spells : Spells isClearChar (escape text) text :=
  h.spells_low.mono fun _ hc => (Bool.and_eq_true_iff.mp hc).1

theorem IsRenderableText.spells_value : Spells isClearValueChar (escape text) text :=
  h.spells_low.mono fun c hc => by rw [isClearValueChar, hc, Bool.true_or]

end

theorem Head.IsRenderable.isSpelledBy {head : Head} (h : head.IsRenderable) :
    head.IsSpelledBy escape where
  clear :=
    { tag := h.tag.1.isUsable
      names := by
        refine List.forall_mem_map.mpr fun attr hattr =>
          ⟨(h.names attr hattr).1.isUsable, fun heq => ?_⟩
        exact (h.names attr hattr).2 (heq ▸ List.infix_refl _)
      distinct := by
        have hdistinct := h.distinct
        rwa [Head.encoded, List.map_map]
      values := by
        exact List.forall_mem_map.mpr fun attr hattr => ⟨_, (h.values attr hattr).2.spells_value⟩ }
  values attr hattr := ⟨(h.values attr hattr).1, (h.values attr hattr).2.spells_value⟩

theorem Head.IsRenderable.isTransparent {head : Head} (h : head.IsRenderable) :
    head.IsTransparent :=
  ⟨h.tag.1.toNat_lt, h.notOpaque⟩

mutual
theorem Node.IsRenderable.tokens : ∀ {node : Node}, node.IsRenderable →
    ∀ token ∈ (node.written closes).tokens, token.IsSpelledBy escape ∧ token.IsTransparent
  | .text content, h => by
    rw [Node.written, Written.tokens, List.forall_mem_singleton]
    exact ⟨h.2.2.spells, trivial⟩
  | .element head children, h => by
    have hopening : ∀ closes, (Token.opening head closes).IsSpelledBy escape ∧
        (Token.opening head closes).IsTransparent := fun _ => ⟨h.1.isSpelledBy, h.1.isTransparent⟩
    rw [Node.written]
    split_ifs
    · rw [Written.tokens, List.forall_mem_singleton]
      exact hopening true
    · rw [Written.tokens, List.forall_mem_cons, List.forall_mem_append, List.forall_mem_singleton]
      exact ⟨hopening false, AreRenderable.tokens h.2, h.1.tag.1.isUsable, trivial⟩

theorem AreRenderable.tokens : ∀ {nodes : List Node}, AreRenderable nodes →
    ∀ token ∈ tokensOf (writtenAll closes nodes), token.IsSpelledBy escape ∧ token.IsTransparent
  | [], _ => by simp [writtenAll, tokensOf]
  | node :: rest, h => by
    rw [writtenAll, tokensOf, List.forall_mem_append]
    exact ⟨h.1.tokens, AreRenderable.tokens h.2.2⟩
end

theorem IsFree.append {first second : Text} (hfirst : IsFree first) (hsecond : IsFree second)
    (hedge : ∀ c ∈ second.head?, c ∉ "xmlns".toList) : IsFree (first ++ second) := by
  cases second with
  | nil => rwa [List.append_nil]
  | cons c second =>
    intro h
    rcases Text.isInfix_append_cons (hedge c rfl) h with h | h
    · exact hfirst h
    · exact hsecond (h.trans (List.suffix_cons c second).isInfix)

theorem IsFree.of_isInfix {part text : Text} (h : IsFree text) (hpart : part <:+: text) :
    IsFree part :=
  fun hmem => h (hmem.trans hpart)

theorem IsFree.cons {c : Char} {text : Text} (hc : c ∉ "xmlns".toList) (h : IsFree text) :
    IsFree (c :: text) := by
  have hempty : IsFree [] := by decide
  intro hmem
  have hsides : "xmlns".toList <:+: [] ++ c :: text := hmem
  exact (Text.isInfix_append_cons hc hsides).elim hempty h

theorem isReferenceShape : ∀ entry ∈ references,
    entry.2 = '&' :: (entry.2.tail.dropLast ++ [';']) ∧ IsFree entry.2.tail.dropLast := by decide

theorem escapeChar_cases (c : Char) :
    escapeChar c = [c] ∨ ∃ name, escapeChar c = '&' :: (name ++ [';']) ∧ IsFree name := by
  cases hlookup : references.lookup c with
  | none => exact .inl (by rw [escapeChar, hlookup]; rfl)
  | some ref =>
    obtain ⟨first, others, hentries, -⟩ := List.lookup_eq_some_iff.mp hlookup
    have hmem : (c, ref) ∈ references := by simp [hentries]
    obtain ⟨hshape, hfree⟩ := isReferenceShape _ hmem
    exact .inr ⟨_, by rw [escapeChar, hlookup]; exact hshape, hfree⟩

/-- What an escaped text begins with before any reference is how the text begins. -/
theorem isPrefix_of_isPrefix_escape {piece text : Text} (hpiece : '&' ∉ piece)
    (h : piece <+: escape text) : piece <+: text := by
  induction text generalizing piece with
  | nil => exact h
  | cons c text ih =>
    rw [escape, List.flatMap_cons] at h
    cases piece with
    | nil => exact List.nil_prefix
    | cons d piece =>
      rw [List.mem_cons, not_or] at hpiece
      rcases escapeChar_cases c with hc | ⟨name, hc, -⟩
      · rw [hc, List.singleton_append, List.cons_prefix_cons] at h
        exact List.cons_prefix_cons.mpr ⟨h.1, ih hpiece.2 h.2⟩
      · rw [hc, List.cons_append, List.cons_prefix_cons] at h
        exact absurd h.1.symm hpiece.1

theorem isFree_escape {text : Text} (h : IsFree text) : IsFree (escape text) := by
  induction text with
  | nil => exact h
  | cons c text ih =>
    have htext : IsFree (escape text) := ih (h.of_isInfix (List.suffix_cons c text).isInfix)
    rw [escape, List.flatMap_cons]
    rcases escapeChar_cases c with hc | ⟨name, hc, hname⟩
    · rw [hc, List.singleton_append]
      intro hmem
      rcases List.infix_cons_iff.mp hmem with hfront | hmem
      · refine h (isPrefix_of_isPrefix_escape (by decide) ?_).isInfix
        rwa [escape, List.flatMap_cons, hc]
      · exact htext hmem
    · rw [hc, List.cons_append, List.append_assoc, List.singleton_append]
      refine .cons (by decide) (hname.append (.cons (by decide) htext) ?_)
      rintro d ⟨⟩
      decide

theorem isFree_attributes {attributes : List Attribute} {rest : Text}
    (h : ∀ attr ∈ attributes, IsFree attr.name ∧ IsFree attr.value) (hrest : IsFree rest) :
    IsFree (attributes.flatMap Attribute.render ++ rest) := by
  induction attributes with
  | nil => exact hrest
  | cons attr attributes ih =>
    obtain ⟨⟨hname, hvalue⟩, hattributes⟩ := List.forall_mem_cons.mp h
    rw [List.flatMap_cons, List.append_assoc, Attribute.render, List.cons_append, List.append_assoc,
      List.cons_append, List.cons_append, List.append_assoc, List.singleton_append]
    refine .cons (by decide) (hname.append (.cons (by decide) (.cons (by decide)
      ((isFree_escape hvalue).append (.cons (by decide) (ih hattributes)) ?_))) ?_)
    · rintro d ⟨⟩
      decide
    · rintro d ⟨⟩
      decide

theorem Head.IsRenderable.isFree_append {head : Head} (h : head.IsRenderable) (closes : Bool)
    {rest : Text} (hrest : IsFree rest) : IsFree (head.render closes ++ rest) := by
  have hattributes : ∀ attr ∈ head.attributes, IsFree attr.name ∧ IsFree attr.value :=
    fun attr hattr =>
    ⟨(h.names attr hattr).2, (h.values attr hattr).2.free⟩
  have hend : IsFree (tagEnd closes ++ rest) := by
    cases closes with
    | false => exact .cons (by decide) hrest
    | true => exact .cons (by decide) (.cons (by decide) hrest)
  have hedge : EndsName (head.attributes.flatMap Attribute.render ++ (tagEnd closes ++ rest)) := by
    rw [← attributeSource_encoded]
    exact endsName_attributeSource _ (endsName_tagEnd closes rest)
  obtain ⟨c, more, hcons, hc⟩ := hedge
  have hleft := isFree_attributes hattributes hend
  rw [Head.render, List.cons_append, List.append_assoc, List.append_assoc]
  rw [hcons] at hleft ⊢
  refine .cons (by decide) (h.tag.2.append hleft ?_)
  rintro d ⟨⟩
  exact (by decide : ∀ c ∈ [' ', '/', '>'], c ∉ "xmlns".toList) c hc

theorem head?_renderAll_append {nodes : List Node} {rest : Text}
    (h : nodes.head?.any Node.isText = false) (hrest : ∀ c ∈ rest.head?, c ∉ "xmlns".toList) :
    ∀ c ∈ (renderAll closes nodes ++ rest).head?, c ∉ "xmlns".toList := by
  cases nodes with
  | nil => exact hrest
  | cons node nodes =>
    cases node with
    | text content => cases h
    | element head children =>
      rw [renderAll, Node.render]
      split_ifs <;>
      · rintro c ⟨⟩
        decide

mutual
/-- A text could go on in what stands behind it; an element could not. -/
theorem Node.IsRenderable.isFree_append : ∀ {node : Node} {rest : Text}, node.IsRenderable →
    IsFree rest →
    (node.isText → ∀ c ∈ rest.head?, c ∉ "xmlns".toList) → IsFree (node.render closes ++ rest)
  | .text content, rest, h, hrest, hedge => (isFree_escape h.2.2.free).append hrest (hedge rfl)
  | .element head children, rest, h, hrest, _ => by
    rw [Node.render]
    split_ifs
    · exact h.1.isFree_append true hrest
    · have hclosing : IsFree ('<' :: '/' :: (head.tag ++ '>' :: rest)) := by
        refine .cons (by decide) (.cons (by decide) (h.1.tag.2.append (.cons (by decide) hrest) ?_))
        rintro c ⟨⟩
        decide
      have hedge : ∀ c ∈ ('<' :: '/' :: (head.tag ++ '>' :: rest)).head?, c ∉ "xmlns".toList := by
        rintro c ⟨⟩
        decide
      have hinner := AreRenderable.isFree_append h.2 hclosing hedge
      simpa using h.1.isFree_append false hinner

theorem AreRenderable.isFree_append : ∀ {nodes : List Node} {rest : Text}, AreRenderable nodes →
    IsFree rest →
    (∀ c ∈ rest.head?, c ∉ "xmlns".toList) → IsFree (renderAll closes nodes ++ rest)
  | [], _, _, hrest, _ => hrest
  | node :: nodes, rest, h, hrest, hedge => by
    rw [renderAll, List.append_assoc]
    exact h.1.isFree_append (AreRenderable.isFree_append h.2.2 hrest hedge) fun htext =>
      head?_renderAll_append (h.2.1 htext) hedge
end

variable {tree : Element}

theorem Element.IsRenderable.isFree (h : tree.IsRenderable) (closes : Head → Bool) :
    IsFree (tree.render closes) := by
  have hend : IsFree [] := by decide
  have hfree : IsFree (tree.toNode.render closes ++ []) := h.node.isFree_append hend (by simp)
  rwa [List.append_nil] at hfree

theorem head?_written (tree : Element) (closes : Head → Bool) :
    (tree.toNode.written closes).head? = some tree.head := by
  rw [Element.toNode, Node.written]
  split_ifs <;> rfl

theorem Element.IsRenderable.tree_written (h : tree.IsRenderable) (closes : Head → Bool) :
    (tree.toNode.written closes).tree tree.head = tree := by
  have hchildren : (tree.toNode.written closes).children = writtenAll closes tree.children := by
    rw [Element.toNode, Node.written]
    split_ifs with hempty
    · rw [Bool.and_eq_true, List.isEmpty_iff] at hempty
      rw [hempty.2]
      rfl
    · rfl
  rw [Written.tree, hchildren, nodesOf_writtenAll h.node.2]

/-- Building undoes rendering. -/
theorem build_render (h : tree.IsRenderable) (closes : Head → Bool) :
    build Config.standard (tree.render closes) = .ok tree := by
  have hsource : tree.render closes =
    Xml.encodedSource escape (tree.toNode.written closes).tokens :=
    tree.toNode.render_eq
  have hdepth : (tree.toNode.written closes).depth ≤ depthLimit := by
    rw [Node.depth_written]
    exact h.depth
  have hroot : Config.standard.rootTags.contains tree.head.tag = true :=
    List.contains_iff_mem.mpr h.root
  have htokens : ∀ token ∈ (tree.toNode.written closes).tokens,
      token.IsSpelledBy escape ∧ token.IsTransparent := h.node.tokens
  have hbuild := build_encoded (head?_written tree closes)
    (fun token hmem => (htokens token hmem).1)
    (wrapOpaque_encodedSource htokens) hroot hdepth ?_
  · rw [hsource, hbuild, h.tree_written closes]
  · intro closes' tokens htokens
    have hfree : IsFree ('<' :: (tree.head.tag ++
        afterRoot (tree.head.encoded escape) closes' (tokens.map (Token.encoded escape)))) := by
      have hroot := h.isFree closes
      rw [hsource, htokens] at hroot
      have hsplit :=
        sourceOf_root (tree.head.encoded escape) closes' (tokens.map (Token.encoded escape))
      exact hsplit.symm ▸ hroot
    exact declaresAtRoot_of_not_isInfix
      (hfree.of_isInfix (List.prefix_append ('<' :: tree.head.tag) _).isInfix)
      (hfree.of_isInfix (List.suffix_append ('<' :: tree.head.tag) _).isInfix)
        (endsName_afterRoot _ _ _)

/-- A tree with qualified names, with characters to escape and with elements that have no
children. -/
def noticeTree : Element :=
  ⟨⟨"apex:page".toList, [⟨"controller".toList, "Notices".toList⟩]⟩,
    [.text "Fish & \"chips\"".toList,
      .element ⟨"c:banner".toList, [⟨"data:level".toList, "a < b\nc".toList⟩]⟩ [],
      .element ⟨"p".toList, []⟩ [.text "it's > 2".toList]]⟩

theorem isRenderable_noticeTree : noticeTree.IsRenderable := by
  have hpage : IsAsciiName "apex:page".toList :=
    .qualified (by decide : isAsciiPart "apex".toList) (by decide)
      (by decide : isAsciiPart "page".toList)
  have hbanner : IsAsciiName "c:banner".toList :=
    .qualified (by decide : isAsciiPart "c".toList) (by decide)
      (by decide : isAsciiPart "banner".toList)
  have hlevel : IsAsciiName "data:level".toList :=
    .qualified (by decide : isAsciiPart "data".toList) (by decide)
      (by decide : isAsciiPart "level".toList)
  have hroot : noticeTree.head.IsRenderable := by
    refine ⟨⟨hpage, by decide +kernel⟩, by decide, ?_, by decide, ?_⟩
    · exact List.forall_mem_singleton.mpr ⟨.simple (by decide), by decide +kernel⟩
    · exact List.forall_mem_singleton.mpr ⟨by decide, by decide, by decide, by decide +kernel⟩
  have hempty :
    Head.IsRenderable ⟨"c:banner".toList, [⟨"data:level".toList, "a < b\nc".toList⟩]⟩ := by
    refine ⟨⟨hbanner, by decide +kernel⟩, by decide, ?_, by decide, ?_⟩
    · exact List.forall_mem_singleton.mpr ⟨hlevel, by decide +kernel⟩
    · exact List.forall_mem_singleton.mpr ⟨by decide, by decide, by decide, by decide +kernel⟩
  have hlast : Head.IsRenderable ⟨"p".toList, []⟩ :=
    ⟨⟨.simple (by decide), by decide +kernel⟩, by decide, by simp, by decide, by simp⟩
  have hfirst : IsRenderableText "Fish & \"chips\"".toList :=
    ⟨by decide, by decide, by decide +kernel⟩
  have hinner : IsRenderableText "it's > 2".toList := ⟨by decide, by decide, by decide +kernel⟩
  exact ⟨by decide, ⟨hroot, ⟨by decide, by decide, hfirst⟩, by decide, ⟨hempty, trivial⟩, by decide,
    ⟨hlast, ⟨by decide, by decide, hinner⟩, by decide, trivial⟩, by decide, trivial⟩, by decide⟩

theorem build_noticeTree : noticeTree.IsRenderable ∧
    build Config.standard (noticeTree.render fun _ => true) = .ok noticeTree :=
  ⟨isRenderable_noticeTree, build_render isRenderable_noticeTree fun _ => true⟩

end Visualforce.Markup
