import Visualforce.Proofs.Markup.Comments
import Visualforce.Proofs.Markup.OrdinaryToken

/-! # Pages with comments

A page may have comments before, among and behind its tokens. A comment holds tags as they are
written on ordinary pages, whether they match or not, and texts in which nothing begins that a pass
over a page looks for.
-/
namespace Visualforce.Markup

/-- What stands on a page with comments: one of its tokens, or a comment with what it holds. -/
inductive Item where
  | token (token : Token)
  | comment (parts : List Token)

variable {encode : Text → Text} {items : List Item} {token part : Token} {parts : List Token}

def Item.source (encode : Text → Text) : Item → Text
  | .token token => (token.encoded encode).source
  | .comment parts => commentSource (sourceOf parts)

def itemsSource (encode : Text → Text) (items : List Item) : Text :=
  items.flatMap (Item.source encode)

@[simp] theorem itemsSource_nil (encode : Text → Text) : itemsSource encode [] = [] := rfl

@[simp] theorem itemsSource_cons (encode : Text → Text) (item : Item) (items : List Item) :
    itemsSource encode (item :: items) = item.source encode ++ itemsSource encode items :=
  List.flatMap_cons

@[simp] theorem itemsSource_append (encode : Text → Text) (first second : List Item) :
    itemsSource encode (first ++ second) = itemsSource encode first ++ itemsSource encode second :=
  List.flatMap_append

def Item.token? : Item → Option Token
  | .token token => some token
  | .comment _ => none

/-- What a page has left without its comments. -/
def tokensAmong (items : List Item) : List Token := items.filterMap Item.token?

@[simp] theorem tokensAmong_nil : tokensAmong [] = [] := rfl

@[simp] theorem tokensAmong_token (token : Token) (items : List Item) :
    tokensAmong (.token token :: items) = token :: tokensAmong items := rfl

@[simp] theorem tokensAmong_comment (parts : List Token) (items : List Item) :
    tokensAmong (.comment parts :: items) = tokensAmong items := rfl

/-- The tokens of a page together with those in its comments. -/
def Item.tokens : Item → List Token
  | .token token => [token]
  | .comment parts => parts

/-- A character at which no tag, reference or value begins. -/
def isRemarkChar (c : Char) : Bool := Xml.isLegal c && !"<&=".toList.contains c

def Token.IsRemark : Token → Prop
  | .text content => ∀ c ∈ content, isRemarkChar c
  | token => token.IsOrdinary

/-- What a comment may hold. Two hyphens would end it, and one at its end would belong to those that
do. -/
structure AreRemarks (parts : List Token) : Prop where
  each : ∀ part ∈ parts, part.IsRemark
  hyphens : ¬ "--".toList <:+: sourceOf parts ++ ['-']

/-- A token that is read back and is no tag of an opaque element, or a comment that no pass takes
for more than that. -/
def Item.IsReadable (encode : Text → Text) : Item → Prop
  | .token token => token.IsReadBack encode ∧ token.IsTransparent
  | .comment parts => AreRemarks parts

def Item.IsOrdinary : Item → Prop
  | .token token => token.IsOrdinary
  | .comment parts => AreRemarks parts

theorem Item.IsOrdinary.isReadable {item : Item} (h : item.IsOrdinary) : item.IsReadable id := by
  cases item with
  | token token => exact ⟨Token.IsOrdinary.isReadBack h, Token.IsOrdinary.isTransparent h⟩
  | comment parts => exact h

theorem isReadBack_of_mem_tokensAmong (h : ∀ item ∈ items, item.IsReadable encode) :
    ∀ token ∈ tokensAmong items, token.IsReadBack encode := by
  intro token hmem
  obtain ⟨item, hitem, htoken⟩ := List.mem_filterMap.mp hmem
  cases item with
  | token _ =>
    cases htoken
    exact (h _ hitem).1
  | comment parts => cases htoken

theorem isLegal_of_isNamePart {c : Char} (h : isNamePart c) : Xml.isLegal c = true :=
  (isLegal_of_isNameChar (isNameChar_of_isNamePart h)).1

theorem isLegal_of_isPlainValueChar {c : Char} (h : isPlainValueChar c) : Xml.isLegal c = true := by
  rw [isPlainValueChar, Bool.or_eq_true, beq_iff_eq] at h
  rcases h with h | rfl
  · simp only [isPlainChar, Bool.and_eq_true] at h
    exact h.1.1
  · decide

theorem isLegal_attribute {head : Head} (h : head.IsOrdinary) {attr : Attribute}
    (hattr : attr ∈ head.attributes) : ∀ c ∈ attr.source, Xml.isLegal c := by
  have hname : ∀ c ∈ attr.name, Xml.isLegal c := fun c hc =>
    isLegal_of_isNamePart (forall_mem_of_isWordName (h.names attr hattr).1 c hc)
  have hvalue : ∀ c ∈ attr.value, Xml.isLegal c := (h.values attr hattr).forall_mem
    (fun _ => isLegal_of_isPlainValueChar) (by decide) (by decide) (by decide)
  intro c hc
  simp only [Attribute.source, List.mem_cons, List.mem_append, List.not_mem_nil, or_false] at hc
  rcases hc with rfl | hc | rfl | rfl | hc | rfl
  exacts [by decide, hname c hc, by decide, by decide, hvalue c hc, by decide]

theorem Token.IsRemark.isLegal (h : part.IsRemark) : ∀ c ∈ part.source, Xml.isLegal c := by
  have htag {tag : Text} (htag : IsOrdinaryTag tag) : ∀ c ∈ tag, Xml.isLegal c :=
    htag.forall_mem (fun _ => isLegal_of_isNamePart) (by decide)
  cases part with
  | text content => exact fun c hc => (Bool.and_eq_true_iff.mp (h c hc)).1
  | opening head closes =>
    have hhead : head.IsOrdinary := h
    have hattributes : ∀ c ∈ head.attributeSource, Xml.isLegal c :=
      List.forall_mem_flatMap.mpr fun _ => isLegal_attribute hhead
    have hend : ∀ c ∈ tagEnd closes, Xml.isLegal c := by cases closes <;> decide
    exact List.forall_mem_cons.mpr ⟨by decide, List.forall_mem_append.mpr ⟨htag hhead.tag,
      List.forall_mem_append.mpr ⟨hattributes, hend⟩⟩⟩
  | closing tag =>
    exact List.forall_mem_cons.mpr ⟨by decide, List.forall_mem_cons.mpr ⟨by decide,
      List.forall_mem_append.mpr ⟨htag h, by decide⟩⟩⟩

end Visualforce.Markup
