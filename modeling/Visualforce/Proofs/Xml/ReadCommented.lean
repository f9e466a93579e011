import Visualforce.Proofs.Markup.CommentedPage
import Visualforce.Proofs.Xml.ReadDocument

/-! # Reading pages with comments

A comment costs a document one step and leaves what has been read as it is, in an element as well as
in front of the root and behind it. So a page is read as if its comments were not there.
-/
namespace Visualforce.Xml
open Markup

variable {entities : Entities} {encode : Text → Text} {qualifiers : List Text} {items : List Item}
variable {parts : List Token} {body rest : Text} {outer : List Frame} {frame : Frame} {run : Text}

theorem comment_append (hlegal : ∀ c ∈ body, isLegal c)
    (hhyphens : ¬ ['-', '-'] <:+: body ++ ['-']) (opening rest : Text) :
    comment opening (body ++ '-' :: '-' :: '>' :: rest) = .ok rest := by
  induction body with
  | nil => rfl
  | cons c body ih =>
    obtain ⟨hc, hlegal⟩ := List.forall_mem_cons.mp hlegal
    have hfront : c = '-' → (body ++ ['-']).head? ≠ some '-' := by
      rintro rfl hnext
      obtain ⟨more, hmore⟩ := List.head?_eq_some_iff.mp hnext
      exact hhyphens ⟨[], more, by simp [hmore]⟩
    have hstep : comment opening (c :: (body ++ '-' :: '-' :: '>' :: rest)) =
        comment opening (body ++ '-' :: '-' :: '>' :: rest) := by
      have hnext : ∀ more, body ++ '-' :: '-' :: '>' :: rest = '-' :: more →
          (body ++ ['-']).head? = some '-' := by
        intro more hmore
        cases body with
        | nil => rfl
        | cons d body => exact congrArg some (List.cons_eq_cons.mp hmore).1
      rw [comment, if_pos hc]
      · exact fun more hchar hmore => hfront hchar (hnext _ hmore)
      · exact fun more hchar hmore => hfront hchar (hnext _ hmore)
    rw [List.cons_append, hstep]
    exact ih hlegal fun hmem => hhyphens (hmem.trans (List.suffix_cons c _).isInfix)

theorem comment_remarks (h : AreRemarks parts) (opening rest : Text) :
    comment opening (sourceOf parts ++ '-' :: '-' :: '>' :: rest) = .ok rest := by
  refine comment_append (fun c hc => ?_) h.hyphens opening rest
  obtain ⟨part, hpart, hc⟩ := List.mem_flatMap.mp hc
  exact (h.each part hpart).isLegal c hc

theorem commentSource_append (body rest : Text) : commentSource body ++ rest =
    '<' :: '!' :: '-' :: '-' :: (body ++ '-' :: '-' :: '>' :: rest) := by
  simp [commentSource, commentOpening, commentClosing]

theorem content_comment (h : AreRemarks parts) (n : Nat) :
    content entities (n + 1) outer frame run (commentSource (sourceOf parts) ++ rest) =
      content entities n outer frame run rest := by
  rw [commentSource_append, content, comment_remarks h]
  rfl

theorem mark_comment (h : AreRemarks parts) :
    mark (commentSource (sourceOf parts) ++ rest) = .ok (.comment, rest) := by
  rw [commentSource_append, mark, exclamation, comment_remarks h]
  rfl

/-- How many steps it takes to read an item. -/
def stepsAtItem : Item → Nat
  | .token token => stepsAt token
  | .comment _ => 1

def stepsAmong : List Item → Nat
  | [] => 0
  | item :: items => stepsAtItem item + stepsAmong items

theorem stepsAmong_le (h : ∀ item ∈ items, item.IsReadable encode) :
    stepsAmong items ≤ (itemsSource encode items).length := by
  induction items with
  | nil => rfl
  | cons item items ih =>
    obtain ⟨hitem, hitems⟩ := List.forall_mem_cons.mp h
    have hone : stepsAtItem item ≤ (item.source encode).length := by
      cases item with
      | token token => exact stepsAt_le hitem.1
      | comment parts => simp [stepsAtItem, Item.source, commentSource, commentOpening]
    rw [stepsAmong, itemsSource_cons, List.length_append]
    exact Nat.add_le_add hone (ih hitems)

/-- In front of a root tag, comments only cost the prolog a step each. -/
theorem prologFrom_items {front : List Item} (hfront : ∀ item ∈ front, item.token? = none)
    (h : ∀ item ∈ front, item.IsReadable encode) {c : Char} (hc : isTagNameStart c) (more : Text)
    (setup : Setup) (fuel : Nat) (isFirst : Bool) :
    prologFrom (stepsAmong front + fuel + 1) isFirst setup
        (itemsSource encode front ++ '<' :: c :: more) = .ok (setup, '<' :: c :: more) := by
  induction front generalizing isFirst with
  | nil => exact prologFrom_tag hc more _ isFirst setup
  | cons item front ih =>
    obtain ⟨hitem, hothers⟩ := List.forall_mem_cons.mp hfront
    obtain ⟨hreadable, hitems⟩ := List.forall_mem_cons.mp h
    cases item with
    | token token => cases hitem
    | comment parts =>
      have hsteps : stepsAmong (.comment parts :: front) + fuel = stepsAmong front + fuel + 1 := by
        rw [stepsAmong, stepsAtItem, Nat.add_comm 1, Nat.add_right_comm]
      rw [hsteps, itemsSource_cons, Item.source, List.append_assoc, prologFrom,
        mark_comment hreadable, ok_bind]
      · exact ih hothers hitems false
      · rw [commentSource_append]
        exact List.cons_ne_nil _ _

/-- Neither does anything else stand behind it. -/
theorem epilog_items (h : ∀ item ∈ items, item.IsReadable encode)
    (hempty : encodedSource encode (tokensAmong items) = []) (fuel : Nat) :
    epilog fuel (itemsSource encode items) = .ok () := by
  induction items generalizing fuel with
  | nil => cases fuel <;> rfl
  | cons item items ih =>
    obtain ⟨hitem, hitems⟩ := List.forall_mem_cons.mp h
    cases item with
    | token token =>
      rw [tokensAmong_token, encodedSource_cons, List.append_eq_nil_iff] at hempty
      rw [itemsSource_cons, Item.source, hempty.1]
      exact ih hitems hempty.2 fuel
    | comment parts =>
      cases fuel with
      | zero => rfl
      | succ fuel =>
        rw [itemsSource_cons, Item.source, epilog, mark_comment hitem, ok_bind]
        · exact ih hitems hempty fuel
        · rw [commentSource_append]
          exact List.cons_ne_nil _ _

theorem isCalm_itemsSource (h : ∀ item ∈ items, item.IsReadable encode) :
    IsCalm (itemsSource encode items) := by
  induction items with
  | nil => simp [IsCalm]
  | cons item items ih =>
    obtain ⟨hitem, hitems⟩ := List.forall_mem_cons.mp h
    rw [itemsSource_cons]
    cases item with
    | comment parts => simp [Item.source, IsCalm, commentSource, commentOpening]
    | token token =>
      cases token with
      | text content =>
        exact (ih hitems).append (IsLegible.not_mem ⟨_, hitem.1⟩ (by decide) (by decide))
      | opening head closes => simp [Item.source, IsCalm, Token.source, Token.encoded]
      | closing tag => simp [Item.source, IsCalm, Token.source, Token.encoded]

theorem isCalm_tokensAmong (h : ∀ item ∈ items, item.IsReadable encode) :
    IsCalm (encodedSource encode (tokensAmong items)) := by
  have hend : IsCalm [] := by simp [IsCalm]
  have hcalm := isCalm_encodedSource (isReadBack_of_mem_tokensAmong h) hend
  rwa [List.append_nil] at hcalm

/-- Comments among the parts of an element change nothing but how many steps are taken, and those
behind the root are left to the epilog. -/
theorem content_items (h : ∀ item ∈ items, item.IsReadable encode)
    (hdeclared : ∀ head ∈ headsOf (tokensAmong items), head.qualifiers ⊆ qualifiers)
    {outer : List Frame} {frame : Frame} {run : Text}
    (hscopes : ∀ opened ∈ frame :: outer, opened.opened.scope.Binds qualifiers) {root : Element}
    {n : Nat}
    (hread : content entities (stepsOf (tokensAmong items) + n) outer frame run
      (encodedSource encode (tokensAmong items)) = .ok (root, [])) :
    ∃ left, (∀ fuel, epilog fuel left = .ok ()) ∧
      content entities (stepsAmong items + n) outer frame run (itemsSource encode items) =
        .ok (root, left) := by
  -- Every tag changes the frames, so the induction is for all of them.
  induction items generalizing outer frame run with
  | nil =>
    have hend : content entities n outer frame run [] = fail .noElement [] := by cases n <;> rfl
    have hread : content entities (0 + n) outer frame run [] = .ok (root, []) := hread
    rw [Nat.zero_add, hend] at hread
    cases hread
  | cons item items ih =>
    obtain ⟨hitem, hitems⟩ := List.forall_mem_cons.mp h
    cases item with
    | comment parts =>
      obtain ⟨left, hleft, hcontent⟩ := ih hitems hdeclared hscopes hread
      refine ⟨left, hleft, ?_⟩
      rw [stepsAmong, stepsAtItem, Nat.add_comm 1, Nat.add_right_comm, itemsSource_cons,
        Item.source, content_comment hitem]
      exact hcontent
    | token token =>
      rw [tokensAmong_token, stepsOf, encodedSource_cons, Nat.add_assoc] at hread
      rw [stepsAmong, stepsAtItem, itemsSource_cons, Item.source, Nat.add_assoc]
      cases token with
      | text content =>
        have hspells : Spells isTextChar (encode content) content :=
          Spells.mono hitem.1 fun _ => isTextChar_of_isClearChar
        rw [stepsAt, Token.encoded, Token.source,
          content_text hspells (isCalm_tokensAmong hitems)] at hread
        rw [stepsAt, Token.encoded, Token.source, content_text hspells (isCalm_itemsSource hitems)]
        exact ih hitems hdeclared hscopes hread
      | opening head closes =>
        obtain ⟨hhead, hothers⟩ := List.forall_mem_cons.mp hdeclared
        have hscope : frame.opened.scope.Binds qualifiers := hscopes _ List.mem_cons_self
        have hflushed : ∀ opened ∈ frame.flush run :: outer, opened.opened.scope.Binds qualifiers :=
          List.forall_mem_cons.mpr
            ⟨by rwa [flush_opened], fun opened hmem => hscopes opened (.tail _ hmem)⟩
        rw [stepsAt, Nat.add_comm 1, content_opening hitem.1 hscope hhead] at hread ⊢
        split_ifs at hread ⊢ with hcloses
        · refine ih hitems hothers (List.forall_mem_cons.mpr ⟨?_, ?_⟩) hread
          · rw [add_opened]
            exact hflushed _ List.mem_cons_self
          · exact fun opened hmem => hflushed opened (.tail _ hmem)
        · exact ih hitems hothers (List.forall_mem_cons.mpr ⟨hscope, hflushed⟩) hread
      | closing tag =>
        have hsource : ∀ rest, ((Token.closing tag).encoded encode).source ++ rest =
            '<' :: '/' :: (tag ++ '>' :: rest) := by
          simp [Token.encoded, Token.source]
        have htag : IsUsable tag := hitem.1
        rw [stepsAt, Nat.add_comm 1, hsource, content_endTag htag.spelling] at hread ⊢
        split_ifs at hread ⊢
        · cases outer with
          | nil =>
            obtain ⟨rfl, hempty⟩ := Prod.mk.inj (Except.ok.inj hread)
            exact ⟨_, epilog_items hitems hempty, rfl⟩
          | cons parent outer =>
            obtain ⟨-, hparent, houter⟩ : _ ∧ _ ∧ _ := by
              rwa [List.forall_mem_cons, List.forall_mem_cons] at hscopes
            exact ih hitems hdeclared (List.forall_mem_cons.mpr ⟨hparent, houter⟩) hread
        · cases hread

/-- What the root holds is read with its comments as it is without them. -/
theorem content_root {head : Head} {children : List Written}
    (h : ∀ item ∈ items, item.IsReadable encode) (hspelling : IsSpelling head.tag)
    (htokens : tokensAmong items = tokensOf children ++ [.closing head.tag])
    (hinside : ∀ inner ∈ headsOf (tokensOf children), inner.qualifiers ⊆ qualifiers) :
    ∃ left, (∀ fuel, epilog fuel left = .ok ()) ∧
      content ⟨[], false⟩ ((itemsSource encode items).length + 1) []
          ⟨openedBy (pageScope qualifiers) head, []⟩ [] (itemsSource encode items) =
        .ok (⟨expandedName head.tag, expandedAttributes head,
          (forestOf documentMaker children).all documentMaker⟩, left) := by
  obtain ⟨spare, hfuel⟩ := Nat.exists_eq_add_of_le (stepsAmong_le h)
  have hchildren := isReadBack_of_mem_tokensAmong h
  rw [htokens, List.forall_mem_append] at hchildren
  have hheads : ∀ inner ∈ headsOf (tokensAmong items), inner.qualifiers ⊆ qualifiers := by
    rwa [htokens, headsOf_append, headsOf_closing, headsOf_nil, List.append_nil]
  have hsource : encodedSource encode (tokensAmong items) =
      encodedSource encode (tokensOf children) ++ '<' :: '/' :: (head.tag ++ '>' :: []) := by
    simp [htokens, Token.encoded, Token.source]
  have hsteps : stepsOf (tokensAmong items) + (spare + 1) =
      stepsOf (tokensOf children) + (spare + 1 + 1) := by
    rw [htokens, stepsOf_append, Nat.add_assoc, Nat.add_comm (spare + 1)]
    rfl
  rw [hfuel, Nat.add_assoc]
  refine content_items h hheads (List.forall_mem_singleton.mpr (binds_pageScope qualifiers)) ?_
  rw [hsource, hsteps, content_forest children _ (spare + 1) hchildren.1
    (binds_pageScope qualifiers) hinside hspelling rfl]
  rfl

/-- A page with comments is read as it is without them. -/
theorem read_items {head : Head} {closes : Bool} {children : List Written}
    {front behind : List Item} (hfront : ∀ item ∈ front, item.token? = none)
    (hcomments : ∀ item ∈ front, item.IsReadable encode)
    (h : head.IsReadBack encode) (hitems : ∀ item ∈ behind, item.IsReadable encode)
    (hbehind : tokensAmong behind = tokensOf children ++ closingOf head closes)
    (hclosed : closes = true → children = [])
    (hqualifiers : ∀ qualifier ∈ qualifiers, IsQualifier qualifier) (hnodup : qualifiers.Nodup)
    (hdeclared : head.qualifiers ⊆ qualifiers)
    (hinside : ∀ inner ∈ headsOf (tokensOf children), inner.qualifiers ⊆ qualifiers) :
    read (itemsSource encode front ++
        ((Token.opening ((head.encoded encode).declaring qualifiers) closes).source ++
          itemsSource encode behind)) =
      .ok ⟨expandedName head.tag, expandedAttributes head,
        (forestOf documentMaker children).all documentMaker⟩ := by
  let raw := (head.encoded encode).declaring qualifiers
  let inner := raw.attributeSource ++ (tagEnd closes ++ itemsSource encode behind)
  have hspelling : IsSpelling raw.tag := h.spelling
  obtain ⟨c, more, htag, hc, -⟩ := h.spelling.exists_cons
  have hsource : (Token.opening raw closes).source ++ itemsSource encode behind =
      '<' :: (head.tag ++ inner) := by
    simp only [Token.source, inner, List.cons_append, List.append_assoc]
    rfl
  have helement := rootElement_tag (itemsSource encode behind) h hqualifiers hnodup hdeclared closes
    fun opening => startTag_append opening hspelling (isReadable_declaring h hqualifiers) closes
      (itemsSource encode behind)
  obtain ⟨left, hleft, hroot⟩ : ∃ left, (∀ fuel, epilog fuel left = .ok ()) ∧
      rootElement ⟨[], false⟩ ('<' :: (head.tag ++ inner)) =
        .ok (⟨expandedName head.tag, expandedAttributes head,
          (forestOf documentMaker children).all documentMaker⟩, left) := by
    cases closes with
    | true =>
      rw [hclosed rfl] at hbehind ⊢
      refine ⟨_, epilog_items hitems ?_, helement⟩
      rw [hbehind]
      rfl
    | false =>
      obtain ⟨left, hleft, hcontent⟩ := content_root hitems h.spelling hbehind hinside
      exact ⟨left, hleft, helement.trans hcontent⟩
  obtain ⟨spare, hfuel⟩ := Nat.exists_eq_add_of_le (stepsAmong_le hcomments)
  rw [hsource]
  refine read_of_rootElement ?_ ?_ hroot (hleft _)
  · cases front with
    | nil => rfl
    | cons item front =>
      cases item with
      | token token => cases hfront _ List.mem_cons_self
      | comment parts => rfl
  · rw [htag, prolog, List.length_append, hfuel, Nat.add_assoc (stepsAmong front)]
    exact prologFrom_items hfront hcomments hc _ _ _ true

end Visualforce.Xml
