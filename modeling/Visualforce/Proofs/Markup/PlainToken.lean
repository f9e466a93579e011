import Visualforce.Proofs.Markup.OrdinaryToken

/-! # Tokens of plain pages

A plain page is a sequence of tags and texts. Only a tag begins with an opening angle bracket and no
token holds a second one, so a pattern that begins there meets each tag exactly once.
-/
namespace Visualforce.Markup
open Pattern Cursor
open Expression (IsMarked)

variable {κ α : Type} {groups : List (κ × Span)} {before : Option Char} {rest : Text}
variable {goOn : Place κ → Option (Place κ)} {last : Place κ}

theorem forall_mem_of_isIdentifier {name : Text} (h : isIdentifier name) :
    ∀ c ∈ name, isNamePart c := by
  cases name with
  | nil => simp
  | cons c name =>
    simp only [isIdentifier, Bool.and_eq_true, List.all_eq_true] at h
    exact List.forall_mem_cons.mpr ⟨isNamePart_of_isAlpha h.1, h.2⟩

theorem exists_cons_of_isIdentifier {name : Text} (h : isIdentifier name) :
    ∃ c more, name = c :: more ∧ c.isAlpha ∧ ∀ d ∈ more, isNamePart d := by
  cases name with
  | nil => simp [isIdentifier] at h
  | cons c more =>
    simp only [isIdentifier, Bool.and_eq_true, List.all_eq_true] at h
    exact ⟨c, more, rfl, h⟩

theorem isWordName_of_isIdentifier {name : Text} (h : isIdentifier name) :
    isWordName name = true := by
  obtain ⟨c, more, rfl, hc, hmore⟩ := exists_cons_of_isIdentifier h
  rw [isWordName, Bool.and_eq_true, List.all_eq_true]
  exact ⟨by simp [isTagNameStart, hc], hmore⟩

/-- A word pattern takes a whole identifier when that leads to a match. -/
theorem run_identifier_of_some {starts accepts : Char → Bool} {name : Text}
    (hname : isIdentifier name)
    (hstarts : ∀ c, c.isAlpha → starts c) (haccepts : ∀ c, isNamePart c → accepts c)
    (hrest : ∀ c ∈ rest.head?, accepts c = false)
    (hgo : goOn ⟨between (behind before name) rest, groups⟩ = some last) :
    (one starts ++ star (one accepts)).run ⟨between before (name ++ rest), groups⟩ goOn =
      some last := by
  obtain ⟨c, more, rfl, hc, hmore⟩ := exists_cons_of_isIdentifier hname
  simp only [run_append, List.cons_append, run_one_cons, hstarts c hc, if_true]
  exact run_starOne_of_some (fun d hd => haccepts d (hmore d hd)) hrest hgo

theorem run_identifier {starts accepts : Char → Bool} {name : Text} (hname : isIdentifier name)
    (hstarts : ∀ c, c.isAlpha → starts c) (haccepts : ∀ c, isNamePart c → accepts c)
    (hrest : ∀ c ∈ rest.head?, accepts c = false)
    (hrefuse : ∀ before c rest, accepts c → goOn ⟨between before (c :: rest), groups⟩ = none) :
    (one starts ++ star (one accepts)).run ⟨between before (name ++ rest), groups⟩ goOn =
      goOn ⟨between (behind before name) rest, groups⟩ := by
  obtain ⟨c, more, rfl, hc, hmore⟩ := exists_cons_of_isIdentifier hname
  simp only [run_append, List.cons_append, run_one_cons, hstarts c hc, if_true]
  exact run_starOne (fun d hd => haccepts d (hmore d hd)) hrest hrefuse

theorem IsPlainTag.isOrdinary {tag : Text} (h : IsPlainTag tag) : IsOrdinaryTag tag := by
  cases h with
  | simple hname => exact .simple (isWordName_of_isIdentifier hname)
  | qualified hqualifier hreserved hname =>
    exact .qualified (isWordName_of_isIdentifier hqualifier) hreserved
      (isWordName_of_isIdentifier hname)

def Token.IsPlain : Token → Prop
  | .text content => IsMarked isPlainChar content
  | .opening head _ => head.IsPlain
  | .closing tag => IsPlainTag tag

def Token.IsInner : Token → Prop
  | .opening head _ => head.IsInner
  | _ => True

mutual
theorem Written.IsPlain.tokens : ∀ {part : Written}, part.IsPlain →
    ∀ token ∈ part.tokens, token.IsPlain ∧ token.IsInner
  | .text content, h => by
    rw [Written.tokens, List.forall_mem_singleton]
    exact ⟨h, trivial⟩
  | .closed head, h => by
    rw [Written.tokens, List.forall_mem_singleton]
    exact h
  | .element head children, h => by
    rw [Written.tokens, List.forall_mem_cons, List.forall_mem_append, List.forall_mem_singleton]
    exact ⟨⟨h.1, h.2.1⟩, ArePlain.tokens h.2.2, h.1.tag, trivial⟩

theorem ArePlain.tokens : ∀ {parts : List Written}, ArePlain parts →
    ∀ token ∈ tokensOf parts, token.IsPlain ∧ token.IsInner
  | [], _ => by simp [tokensOf]
  | part :: rest, h => by
    rw [tokensOf, List.forall_mem_append]
    exact ⟨Written.IsPlain.tokens h.1, ArePlain.tokens h.2⟩
end

theorem Written.IsPlainPage.tokens {page : Written} (h : page.IsPlainPage) :
    ∃ head closes rest, page.tokens = .opening head closes :: rest ∧ page.head? = some head ∧
      head.tag = pageRoot ∧ head.IsPlain ∧ ∀ token ∈ rest, token.IsPlain ∧ token.IsInner := by
  obtain ⟨head, hhead, htag, hplain⟩ := h.root
  have hinner := h.inner
  cases page with
  | text content => cases hhead
  | closed _ =>
    cases hhead
    exact ⟨head, true, [], rfl, rfl, htag, hplain, by simp⟩
  | element _ children =>
    cases hhead
    refine ⟨head, false, tokensOf children ++ [.closing head.tag], rfl, rfl, htag, hplain, ?_⟩
    rw [List.forall_mem_append, List.forall_mem_singleton]
    exact ⟨ArePlain.tokens hinner, hplain.tag, trivial⟩

theorem Head.IsPlain.isOrdinary {head : Head} (h : head.IsPlain) : head.IsOrdinary where
  tag := h.tag.isOrdinary
  notOpaque := h.notOpaque
  names attr hattr := (h.names attr hattr).imp_left isWordName_of_isIdentifier
  distinct := h.distinct
  values attr hattr := (h.values attr hattr).2

theorem Token.IsPlain.isOrdinary {token : Token} (h : token.IsPlain) : token.IsOrdinary := by
  cases token with
  | text content => exact h
  | opening head closes => exact Head.IsPlain.isOrdinary h
  | closing tag => exact IsPlainTag.isOrdinary h

theorem Head.IsPlain.isClear {head : Head} (h : head.IsPlain) : head.IsClear := h.isOrdinary.isClear

theorem Token.IsPlain.isClear {token : Token} (h : token.IsPlain) : token.IsClear :=
  h.isOrdinary.isClear

theorem Token.IsPlain.isTransparent {token : Token} (h : token.IsPlain) : token.IsTransparent :=
  h.isOrdinary.isTransparent

mutual
theorem Written.IsPlain.isOrdinary : ∀ {part : Written}, part.IsPlain → part.IsOrdinary
  | .text _, h => h
  | .closed _, h => h.1.isOrdinary
  | .element _ _, h => ⟨h.1.isOrdinary, ArePlain.areOrdinary h.2.2⟩

theorem ArePlain.areOrdinary : ∀ {parts : List Written}, ArePlain parts → AreOrdinary parts
  | [], _ => trivial
  | _ :: _, h => ⟨Written.IsPlain.isOrdinary h.1, ArePlain.areOrdinary h.2⟩
end

/-- Without the conditions on what its inner elements are, a plain page is ordinary. -/
theorem Written.IsPlainPage.isOrdinaryPage {page : Written} (h : page.IsPlainPage) :
    page.IsOrdinaryPage := by
  obtain ⟨head, hhead, htag, hplain⟩ := h.root
  refine ⟨⟨head, hhead, htag⟩, ?_, h.depth⟩
  have hinner := h.inner
  cases page with
  | text content => cases hhead
  | closed _ =>
    cases hhead
    exact hplain.isOrdinary
  | element _ children =>
    cases hhead
    exact ⟨hplain.isOrdinary, hinner.areOrdinary⟩

theorem count_colon_of_isIdentifier {name : Text} (h : isIdentifier name) : name.count ':' = 0 := by
  apply List.count_eq_zero.mpr
  intro hmem
  exact absurd (forall_mem_of_isIdentifier h _ hmem) (by decide)

theorem IsPlainTag.count_colon_le {tag : Text} (h : IsPlainTag tag) : tag.count ':' ≤ 1 := by
  cases h with
  | simple h => rw [count_colon_of_isIdentifier h]; exact Nat.zero_le 1
  | qualified hqualifier _ h =>
    rw [List.count_append, List.count_cons, count_colon_of_isIdentifier hqualifier,
      count_colon_of_isIdentifier h]
    simp

/-- A qualified name that ends in a word character; patterns for one tag are made from such a
name. -/
structure IsFixedTag (name : Text) : Prop where
  colon : name.count ':' = 1
  clear : ∀ c ∈ name, c ∉ [' ', '/', '>']
  word : (behind (some '<') name).any Text.isWord

theorem run_fixedTag {name tag after : Text} (hname : IsFixedTag name) (htag : IsPlainTag tag)
    (hafter : EndsName after) (next : Pattern κ) :
    (exactly ('<' :: name) ++ wordEdge ++ next).run
        ⟨between before ('<' :: (tag ++ after)), groups⟩ goOn =
      if tag = name then next.run ⟨between (behind (some '<') tag) after, groups⟩ goOn
        else none := by
  by_cases hfront : name <+: tag ++ after
  · obtain ⟨tail, htail⟩ := hfront
    have hrun : (exactly ('<' :: name) ++ wordEdge ++ next).run
        ⟨between before ('<' :: (tag ++ after)), groups⟩ goOn =
          if !tail.head?.any Text.isWord then
            next.run ⟨between (behind (some '<') name) tail, groups⟩ goOn else none := by
      rw [← htail, ← List.cons_append, run_append, run_append, run_exactly_append, run_wordEdge]
      simp [hname.word]
    rw [hrun]
    obtain ⟨more, hmore, rfl⟩ | ⟨more, hmore, rfl⟩ := List.append_eq_append_iff.mp htail
    · cases more with
      | nil =>
        rw [List.append_nil] at hmore
        subst hmore
        simp [hafter.isWord_head?]
      | cons c more =>
        -- the tag goes on after the name, and not with a second colon
        have hc : Text.isWord c := by
          have hmem : c ∈ tag := by rw [hmore]; simp
          have hparts : ∀ d ∈ tag, Text.isWord d ∨ d = ':' :=
            htag.isOrdinary.forall_mem (fun d hd => .inl (isWord_of_isNamePart hd)) (.inr rfl)
          refine (hparts c hmem).resolve_right ?_
          rintro rfl
          have hcount := htag.count_colon_le
          rw [hmore, List.count_append, hname.colon, List.count_cons_self] at hcount
          omega
        rw [if_neg (by simp [hc]), if_neg]
        rintro rfl
        simp at hmore
    · cases more with
      | nil =>
        rw [List.append_nil] at hmore
        subst hmore
        rw [List.nil_append] at hafter
        simp [hafter.isWord_head?]
      | cons c more =>
        obtain ⟨d, rest, hcons, hd⟩ := hafter
        obtain ⟨rfl, -⟩ := List.cons_eq_cons.mp hcons
        exact absurd hd (hname.clear c (by rw [hmore]; simp))
  · rw [run_append, run_append, run_exactly_of_not_isPrefix, if_neg]
    · rintro rfl
      exact hfront (List.prefix_append _ _)
    · rw [List.cons_prefix_cons]
      exact fun h => hfront h.2

theorem run_fixedTag_closing {name more : Text} (hname : IsFixedTag name) (next : Pattern κ) :
    (exactly ('<' :: name) ++ wordEdge ++ next).run ⟨between before ('<' :: '/' :: more), groups⟩
      goOn =
      none := by
  rw [run_append, run_append, run_exactly_of_not_isPrefix]
  rw [List.cons_prefix_cons]
  rintro ⟨-, hfront⟩
  cases name with
  | nil => exact absurd hname.colon (by decide)
  | cons c name =>
    rw [List.cons_prefix_cons] at hfront
    exact hname.clear c List.mem_cons_self (by simp [hfront.1])

end Visualforce.Markup
