import Visualforce.Proofs.Markup.CommentedPasses
import Visualforce.Proofs.Xml.ReadCommented

/-! # Building pages with comments

A page is built into the same tree with comments and without them, wherever they stand: in front of
the root and behind it, where nothing else does, or inside it. Its root declares the qualifiers in
the comments as well, which no name of the tree has to do with.
-/
namespace Visualforce.Markup
open Pattern Cursor
open Xml (expandedName expandedAttributes documentMaker)

variable {encode : Text → Text} {items front back : List Item} {page : Written} {head : Head}
variable {closes : Bool} {tag left : Text}

theorem AreRemarks.not_isInfix {parts : List Token} (h : AreRemarks parts) :
    ¬ commentClosing <:+: sourceOf parts := by
  have hhyphens : "--".toList <:+: commentClosing := by decide
  exact fun hclosing => h.hyphens ((hhyphens.trans hclosing).trans (List.prefix_append _ _).isInfix)

/-- A comment is found with nothing captured. -/
theorem matchAt_prologOrTag_comment {parts : List Token} (h : AreRemarks parts)
    (before : Option Char) (rest : Text) : ∃ hit,
    prologOrTag.matchAt (between before (commentSource (sourceOf parts) ++ rest)) = some hit ∧
      hit.stop = between (some '>') rest ∧ hit.group? () = none := by
  have hrun : prologOrTag.run ⟨between before (commentSource (sourceOf parts) ++ rest), []⟩ some =
      some ⟨between (some '>') rest, []⟩ := by
    rw [prologOrTag_eq, run_alt, run_comment h.not_isInfix, Option.some_or]
  exact ⟨⟨_, between (some '>') rest, []⟩, by rw [matchAt, hrun]; rfl, rfl, rfl⟩

theorem scans_prologOrTag (hfront : ∀ item ∈ front, item.token? = none)
    (h : ∀ item ∈ front, item.IsReadable encode) (before : Option Char) (rest : Text) :
    ∃ hits after, Scans prologOrTag (seen id) (between before (itemsSource encode front ++ rest))
      hits (between after rest) ∧ ∀ hit ∈ hits, hit.group? () = none := by
  induction front generalizing before with
  | nil => exact ⟨[], before, .done _, List.forall_mem_nil _⟩
  | cons item front ih =>
    obtain ⟨hitem, hothers⟩ := List.forall_mem_cons.mp hfront
    obtain ⟨hreadable, hitems⟩ := List.forall_mem_cons.mp h
    cases item with
    | token token => cases hitem
    | comment parts =>
      obtain ⟨hit, hmatch, hstop, hnone⟩ :=
        matchAt_prologOrTag_comment hreadable before (itemsSource encode front ++ rest)
      obtain ⟨hits, after, hscan, hall⟩ := ih hothers hitems (some '>')
      have hlt : hit.stop.left < (between before (commentSource (sourceOf parts) ++
          (itemsSource encode front ++ rest))).left := by
        have hlength : 0 < (commentSource (sourceOf parts)).length :=
          List.length_pos_of_mem (List.mem_append_left _ (by decide : '<' ∈ commentOpening))
        simp only [hstop, between_left, List.length_append]
        omega
      rw [← hstop] at hscan
      rw [itemsSource_cons, Item.source, List.append_assoc]
      exact ⟨hit :: hits, after, .matched hmatch hlt hscan, List.forall_mem_cons.mpr ⟨hnone, hall⟩⟩

/-- Behind comments, too, declarations go after the name of the root tag. -/
theorem rootTagEnd?_items (hfront : ∀ item ∈ front, item.token? = none)
    (h : ∀ item ∈ front, item.IsReadable encode) (htag : IsSpelling tag)
    (hleft : ∀ c ∈ left.head?, isTagNameChar c = false) :
    rootTagEnd? (itemsSource encode front ++ '<' :: (tag ++ left)) =
      some (between (behind (some '<') tag) left) := by
  obtain ⟨hits, before, hscan, hnone⟩ := scans_prologOrTag hfront h none ('<' :: (tag ++ left))
  obtain ⟨hit, hmatch, hstop, hcaptured⟩ := matchAt_prologOrTag_tag htag hleft before
  have hlt : hit.stop.left < (between before ('<' :: (tag ++ left))).left := by
    simp only [hstop, between_left, List.length_cons, List.length_append]
    omega
  obtain ⟨others, hothers, -⟩ := (hscan.append (Scans.single id hmatch hlt)).hits_behind
  rw [List.map_id, List.map_id] at hothers
  have hskipped : hits.find? (fun hit => (hit.group? ()).isSome) = none :=
    List.find?_eq_none.mpr fun other hother => by simp [hnone other hother]
  rw [rootTagEnd?, hothers, List.append_assoc, List.find?_append, hskipped, Option.none_or,
    List.singleton_append, List.find?_cons, id_eq, hcaptured, ← hstop]
  rfl

theorem itemsSource_root (head : Head) (closes : Bool) (back : List Item) :
    itemsSource encode (.token (.opening head closes) :: back) =
      '<' :: (head.tag ++ ((head.encoded encode).attributeSource ++
        (tagEnd closes ++ itemsSource encode back))) := by
  simp only [itemsSource_cons, Item.source, Token.encoded, Token.source, List.cons_append,
    List.append_assoc]
  rfl

/-- Whatever is declared at its root, a page with comments shows these declarations and no
others. -/
def DeclaresAmong (encode : Text → Text) (front : List Item) (head : Head) (closes : Bool)
    (back : List Item) : Prop :=
  ∀ qualifiers : List Text, (∀ qualifier ∈ qualifiers, IsQualifier qualifier) →
    declarations (itemsSource encode front ++
      ((Token.opening ((head.encoded encode).declaring qualifiers) closes).source ++
        itemsSource encode back)) = declaredBy qualifiers

/-- The declarations go to the root tag, behind the comments in front of it. -/
theorem declareQualifiers_items (hfront : ∀ item ∈ front, item.token? = none)
    (h : ∀ item ∈ front ++ .token (.opening head closes) :: back, item.IsReadable encode)
    (hdeclares : DeclaresAmong encode front head closes back) :
    declareQualifiers (itemsSource encode (front ++ .token (.opening head closes) :: back)) =
      itemsSource encode front ++ ((Token.opening ((head.encoded encode).declaring
        (qualifiersAmong (front ++ .token (.opening head closes) :: back))) closes).source ++
          itemsSource encode back) := by
  obtain ⟨hcomments, hroot, -⟩ : _ ∧ _ ∧ _ := by
    rwa [List.forall_mem_append, List.forall_mem_cons] at h
  have hhead : head.IsReadBack encode := hroot.1
  let left := (head.encoded encode).attributeSource ++ (tagEnd closes ++ itemsSource encode back)
  have hleft : ∀ c ∈ left.head?, isTagNameChar c = false :=
    (endsName_attributeSource _ (endsName_tagEnd closes _)).head? (by decide)
  have hsource : itemsSource encode (front ++ .token (.opening head closes) :: back) =
      (itemsSource encode front ++ '<' :: head.tag) ++ left := by
    rw [itemsSource_append, itemsSource_root, List.append_assoc]
    rfl
  have hend := rootTagEnd?_items hfront hcomments hhead.spelling hleft
  rw [← List.cons_append, ← List.append_assoc] at hend
  have hnone : declarations (itemsSource encode (front ++ .token (.opening head closes) :: back)) =
      [] := by
    rw [itemsSource_append]
    exact hdeclares [] (List.forall_mem_nil _)
  have hundeclared := undeclared_items h hnone
  rw [hsource] at hundeclared ⊢
  rw [declareQualifiers_append hend, hundeclared, source_declaring]
  simp only [left, List.append_assoc, List.cons_append]
  rfl

theorem getLast?_itemsSource (hhead : page.head? = some head)
    (htokens : tokensAmong items = page.tokens) :
    (itemsSource encode items).getLast? = some '>' := by
  obtain ⟨tokens, last, hpage, htag⟩ := exists_last_tag hhead
  rw [hpage] at htokens
  rcases List.eq_nil_or_concat items with rfl | ⟨init, item, rfl⟩
  · rw [tokensAmong_nil] at htokens
    cases tokens <;> cases htokens
  · rw [List.concat_eq_append] at htokens ⊢
    have hitem : (item.source encode).getLast? = some '>' := by
      cases item with
      | comment parts => simp [Item.source, commentSource, commentClosing]
      | token token =>
        have hsplit : tokensAmong init ++ [token] = tokens ++ [last] := by
          rw [← htokens, tokensAmong, tokensAmong, List.filterMap_append]
          rfl
        obtain rfl := List.singleton_inj.mp (List.append_inj_right' hsplit rfl)
        exact getLast?_tag htag
    rw [itemsSource_append, itemsSource_cons, itemsSource_nil, List.append_nil,
      List.getLast?_append, hitem]
    rfl

theorem head?_itemsSource (hfront : ∀ item ∈ front, item.token? = none) :
    (itemsSource encode (front ++ .token (.opening head closes) :: back)).head? = some '<' := by
  cases front with
  | nil => rfl
  | cons item front =>
    cases item with
    | token token => cases hfront _ List.mem_cons_self
    | comment parts => rfl

/-- Whatever stands in its comments, a page is built into the tree that it was written from. -/
theorem build_items (hhead : page.head? = some head) (htokens : tokensAmong items = page.tokens)
    (h : ∀ item ∈ items, item.IsReadable encode)
    (hroot : Config.standard.rootTags.contains head.tag = true) (hdepth : page.depth ≤ depthLimit)
    (hdeclares : ∀ front closes back, items = front ++ .token (.opening head closes) :: back →
      (∀ item ∈ front, item.token? = none) → DeclaresAmong encode front head closes back) :
    build Config.standard (itemsSource encode items) = .ok (page.trimmed.tree head.trimmed) := by
  have hlast : (itemsSource encode items).getLast? = some '>' := getLast?_itemsSource hhead htokens
  have hread := isReadBack_of_mem_tokensAmong h
  have hdeclared : ∀ inner ∈ headsOf (tokensAmong items),
    inner.qualifiers ⊆ qualifiersAmong items := fun _ => qualifiers_subset_qualifiersAmong
  obtain ⟨closes, hpage, hclosed⟩ := tokens_of_head? hhead
  rw [htokens, hpage] at hread hdeclared
  obtain ⟨hspelled, hchildren, -⟩ : _ ∧ _ ∧ _ := by
    rwa [List.forall_mem_cons, List.forall_mem_append] at hread
  rw [headsOf_opening, headsOf_append, headsOf_closingOf, List.append_nil,
    List.forall_mem_cons] at hdeclared
  -- In front of the root there are only comments, since it is the first of the page's tokens.
  obtain ⟨front, item, back, hsplit, hfront, hitem, hback⟩ :=
    List.filterMap_eq_cons_iff.mp (htokens.trans hpage)
  cases item with
  | comment parts => cases hitem
  | token token =>
    cases hitem
    have hamong := hdeclares front closes back hsplit hfront
    have hprepared : prepare Config.standard (itemsSource encode items) =
        itemsSource encode front ++ ((Token.opening ((head.encoded encode).declaring
          (qualifiersAmong items)) closes).source ++ itemsSource encode back) := by
      have hboolean : Config.standard.allowBooleanAttributes = true := rfl
      have hfirst : (itemsSource encode items).head? = some '<' :=
        hsplit ▸ head?_itemsSource hfront
      rw [prepare, trim_withoutMarks hfirst hlast, wrapOpaque_items h, hboolean,
        normalizeOutsideSections_items h]
      subst hsplit
      exact declareQualifiers_items hfront h hamong
    have hqualifiers := isQualifier_of_mem_qualifiersAmong h
    obtain ⟨hcomments, -, hitems⟩ : _ ∧ _ ∧ _ := by
      rwa [hsplit, List.forall_mem_append, List.forall_mem_cons] at h
    exact build_of_read hhead hspelled hchildren hdeclared.1 hdeclared.2 hroot hdepth hprepared
      (hamong _ hqualifiers) (Xml.read_items hfront hcomments hspelled hitems hback hclosed
        hqualifiers (nodup_dedupe _) hdeclared.1 hdeclared.2)

theorem yields_ordinaryItems (h : ∀ item ∈ items, item.IsOrdinary) :
    Yields namespaceDeclaration (seen declaredAt) AvoidsEquals (itemsSource id items) [] := by
  refine .flatMap_nil fun item hitem => ?_
  cases item with
  | token token =>
    rw [Item.source, token.encoded_id]
    exact yields_ordinaryToken (h _ hitem)
  | comment parts =>
    exact (yields_declaration_comment (h _ hitem)).of_anything fun rest _ =>
      avoidsEquals_cons (by decide) (by decide) (by decide) _

/-- Comments change nothing about what an ordinary page is built into. -/
theorem build_commented (h : page.IsOrdinaryPage) (htokens : tokensAmong items = page.tokens)
    (hcomments : ∀ parts, .comment parts ∈ items → AreRemarks parts) :
    build Config.standard (itemsSource id items) = build Config.standard page.source := by
  obtain ⟨head, hhead, htag⟩ := h.root
  have hordinary : ∀ item ∈ items, item.IsOrdinary := by
    rintro (token | parts) hitem
    · exact h.parts.tokens token (htokens ▸ List.mem_filterMap.mpr ⟨_, hitem, rfl⟩)
    · exact hcomments parts hitem
  rw [build_ordinary h hhead]
  refine build_items hhead htokens (fun item hitem => (hordinary item hitem).isReadable)
    (by rw [htag]; decide) h.depth ?_
  rintro front closes back rfl - qualifiers hqualifiers
  obtain ⟨hfront, hroot, hback⟩ : _ ∧ _ ∧ _ := by
    rwa [List.forall_mem_append, List.forall_mem_cons] at hordinary
  have hencoded : head.encoded id = head := by simp [Head.encoded, Attribute.encoded]
  have hyields := (yields_ordinaryItems hfront).append
    ((yields_declaring closes hroot hqualifiers).append (yields_ordinaryItems hback))
  rw [List.nil_append, List.append_nil] at hyields
  rw [hencoded]
  exact hyields.hits avoidsEquals_nil

/-- A comment that holds the text of a declaration is taken for one, so the root declares the
qualifier no more. -/
example : (build Config.standard
    "<apex:page><!-- xmlns:c=\"u\" --><c:a/></apex:page>".toList).toOption.isNone := by
  decide +kernel

end Visualforce.Markup
