import Visualforce.Proofs.Markup.PlainName
import Visualforce.Proofs.Markup.TagMatch

/-! # Ordinary pages

The names of an ordinary page are ASCII identifiers, and its values and texts keep clear of the
characters that markup gives a meaning to. Its values may have blanks around them, and nothing is
said of which attributes an element has.
-/
namespace Visualforce.Markup
open Expression (IsMarked)

/-- An identifier, which an underscore may begin. -/
def isWordName : Text → Bool
  | [] => false
  | c :: rest => isTagNameStart c && rest.all isNamePart

theorem isNamePart_of_isTagNameStart {c : Char} (h : isTagNameStart c) : isNamePart c = true :=
  class_of_isTagNameStart isNamePart true (by decide) h

theorem exists_cons_of_isWordName {name : Text} (h : isWordName name) :
    ∃ c more, name = c :: more ∧ isTagNameStart c ∧ ∀ d ∈ more, isNamePart d := by
  cases name with
  | nil => simp [isWordName] at h
  | cons c more =>
    simp only [isWordName, Bool.and_eq_true, List.all_eq_true] at h
    exact ⟨c, more, rfl, h⟩

theorem forall_mem_of_isWordName {name : Text} (h : isWordName name) :
    ∀ c ∈ name, isNamePart c := by
  obtain ⟨c, more, rfl, hc, hmore⟩ := exists_cons_of_isWordName h
  exact List.forall_mem_cons.mpr ⟨isNamePart_of_isTagNameStart hc, hmore⟩

theorem isPart_of_isWordName {name : Text} (h : isWordName name) : isPart name = true := by
  obtain ⟨c, more, rfl, hc, hmore⟩ := exists_cons_of_isWordName h
  rw [isPart, Bool.and_eq_true, List.all_eq_true]
  refine ⟨hc, fun d hd => ?_⟩
  rw [isPartChar, isQualifierChar_of_isNamePart (hmore d hd), isNameChar_of_isNamePart (hmore d hd)]
  rfl

/-- A tag that is an identifier or two of them around a colon. -/
inductive IsOrdinaryTag : Text → Prop where
  | simple {name : Text} (hname : isWordName name) : IsOrdinaryTag name
  | qualified {qualifier name : Text} (hqualifier : isWordName qualifier)
      (hreserved : isReservedQualifier qualifier = false) (hname : isWordName name) :
      IsOrdinaryTag (qualifier ++ ':' :: name)

namespace IsOrdinaryTag

variable {tag : Text}

theorem isUsable (h : IsOrdinaryTag tag) : IsUsable tag := by
  cases h with
  | simple hname =>
    have hpart := isPart_of_isWordName hname
    exact ⟨.simple hpart, by simp [qualifierOf_simple hpart]⟩
  | qualified hqualifier hreserved hname =>
    have hpart := isPart_of_isWordName hqualifier
    exact ⟨.qualified hpart (isPart_of_isWordName hname), by
      simpa [qualifierOf_qualified hpart] using hreserved⟩

theorem forall_mem {property : Char → Prop} (h : IsOrdinaryTag tag)
    (hname : ∀ c, isNamePart c → property c) (hcolon : property ':') : ∀ c ∈ tag, property c := by
  have hpart : ∀ {part : Text}, isWordName part → ∀ c ∈ part, property c :=
    fun hpart c hc => hname c (forall_mem_of_isWordName hpart c hc)
  cases h with
  | simple hbase => exact hpart hbase
  | qualified hqualifier _ hbase =>
    exact List.forall_mem_append.mpr
      ⟨hpart hqualifier, List.forall_mem_cons.mpr ⟨hcolon, hpart hbase⟩⟩

theorem not_mem {c : Char} (h : IsOrdinaryTag tag) (hname : isNamePart c = false)
    (hcolon : c ≠ ':') :
    c ∉ tag := by
  have hne : ∀ d ∈ tag, d ≠ c := by
    refine h.forall_mem (fun d hd heq => ?_) hcolon.symm
    rw [heq, hname] at hd
    cases hd
  exact fun hmem => hne c hmem rfl

end IsOrdinaryTag

theorem takeWhile_qualifier {qualifier : Text} (h : isWordName qualifier) (name : Text) :
    (qualifier ++ ':' :: name).takeWhile (· != ':') = qualifier ∧
      (qualifier ++ ':' :: name).dropWhile (· != ':') = ':' :: name := by
  have hall : ∀ c ∈ qualifier, (c != ':') = true := by
    intro c hc
    have hpart := forall_mem_of_isWordName h c hc
    exact bne_iff_ne.mpr fun h => absurd (h ▸ hpart) (by decide)
  rw [List.takeWhile_append_of_pos hall, List.dropWhile_append_of_pos hall]
  simp

theorem Head.isNamespaced_of_simple {head : Head} (h : isWordName head.tag) :
    head.isNamespaced = false := by
  have hcolon : head.tag.contains ':' = false := by
    rw [← Bool.not_eq_true, List.contains_iff_mem]
    exact fun hmem => absurd (forall_mem_of_isWordName h _ hmem) (by decide)
  have hspace : head.namespace? = none := by
    rw [Head.namespace?, hcolon]
    rfl
  rw [Head.isNamespaced, hspace]
  rfl

theorem Head.parts_of_qualified {head : Head} {qualifier name : Text}
    (hqualifier : isWordName qualifier)
    (hname : isWordName name) (htag : head.tag = qualifier ++ ':' :: name) :
    head.namespace? = some qualifier ∧ head.name = name ∧ head.isNamespaced = true := by
  have hcolon : head.tag.contains ':' = true := by
    rw [htag]
    simp
  have hspace : head.namespace? = some qualifier := by
    rw [Head.namespace?, if_pos hcolon, htag, (takeWhile_qualifier hqualifier name).1]
  have hbase : head.name = name := by
    rw [Head.name, if_pos hcolon, htag, (takeWhile_qualifier hqualifier name).2]
    rfl
  refine ⟨hspace, hbase, ?_⟩
  obtain ⟨c, more, rfl, -⟩ := exists_cons_of_isWordName hqualifier
  obtain ⟨d, others, rfl, -⟩ := exists_cons_of_isWordName hname
  rw [Head.isNamespaced, hspace, hbase]
  rfl

structure Head.IsOrdinary (head : Head) : Prop where
  tag : IsOrdinaryTag head.tag
  notOpaque : ∀ name ∈ Config.standard.opaqueTags, ¬ name <+: head.tag.map Char.toLower
  names : ∀ attr ∈ head.attributes, isWordName attr.name ∧ attr.name ≠ "xmlns".toList
  distinct : (head.attributes.map (·.name)).Nodup
  values : ∀ attr ∈ head.attributes, IsMarked isPlainValueChar attr.value

def Token.IsOrdinary : Token → Prop
  | .text content => IsMarked isPlainChar content
  | .opening head _ => head.IsOrdinary
  | .closing tag => IsOrdinaryTag tag

mutual
def Written.IsOrdinary : Written → Prop
  | .text content => IsMarked isPlainChar content
  | .closed head => head.IsOrdinary
  | .element head children => head.IsOrdinary ∧ AreOrdinary children

def AreOrdinary : List Written → Prop
  | [] => True
  | part :: rest => part.IsOrdinary ∧ AreOrdinary rest
end

structure Written.IsOrdinaryPage (page : Written) : Prop where
  root : ∃ head, page.head? = some head ∧ head.tag = pageRoot
  parts : page.IsOrdinary
  depth : page.depth ≤ depthLimit

mutual
theorem Written.IsOrdinary.tokens : ∀ {part : Written}, part.IsOrdinary →
    ∀ token ∈ part.tokens, token.IsOrdinary
  | .text content, h => by
    rw [Written.tokens, List.forall_mem_singleton]
    exact h
  | .closed head, h => by
    rw [Written.tokens, List.forall_mem_singleton]
    exact h
  | .element head children, h => by
    rw [Written.tokens, List.forall_mem_cons, List.forall_mem_append, List.forall_mem_singleton]
    exact ⟨h.1, AreOrdinary.tokens h.2, h.1.tag⟩

theorem AreOrdinary.tokens : ∀ {parts : List Written}, AreOrdinary parts →
    ∀ token ∈ tokensOf parts, token.IsOrdinary
  | [], _ => by simp [tokensOf]
  | part :: rest, h => by
    rw [tokensOf, List.forall_mem_append]
    exact ⟨Written.IsOrdinary.tokens h.1, AreOrdinary.tokens h.2⟩
end

theorem isClearChar_of_isPlainChar {c : Char} (h : isPlainChar c) :
    isClearChar c = true ∧ 0x20 ≤ c.toNat := by
  have hreturn : c ≠ '\r' := by
    rintro rfl
    exact absurd h (by decide)
  simp [isPlainChar, isClearChar] at h ⊢
  tauto

theorem spells_text {content : Text} (h : IsMarked isPlainChar content) :
    Spells isClearChar content content :=
  .of_all (h.forall_mem (fun _ hc => (isClearChar_of_isPlainChar hc).1) (by decide) (by decide)
    (by decide))

theorem spells_value {value : Text} (h : IsMarked isPlainValueChar value) :
    Spells isClearValueChar value value := by
  refine .of_all (h.forall_mem (fun c hc => ?_) (by decide) (by decide) (by decide))
  rw [isPlainValueChar, Bool.or_eq_true] at hc
  rw [isClearValueChar, Bool.or_eq_true, Bool.and_eq_true, decide_eq_true_eq]
  exact hc.imp_left isClearChar_of_isPlainChar

theorem isUsable_of_isWordName {name : Text} (h : isWordName name) : IsUsable name :=
  (IsOrdinaryTag.simple h).isUsable

theorem Head.IsOrdinary.isClear {head : Head} (h : head.IsOrdinary) : head.IsClear where
  tag := h.tag.isUsable
  names attr hattr := ⟨isUsable_of_isWordName (h.names attr hattr).1, (h.names attr hattr).2⟩
  distinct := h.distinct
  values attr hattr := ⟨_, spells_value (h.values attr hattr)⟩

theorem Token.IsOrdinary.isClear {token : Token} (h : token.IsOrdinary) : token.IsClear := by
  cases token with
  | text content => exact ⟨_, spells_text h⟩
  | opening head closes => exact Head.IsOrdinary.isClear h
  | closing tag => exact IsOrdinaryTag.isUsable h

theorem Token.IsOrdinary.isTransparent {token : Token} (h : token.IsOrdinary) :
    token.IsTransparent := by
  cases token with
  | opening head closes =>
    refine ⟨?_, Head.IsOrdinary.notOpaque h⟩
    exact (Head.IsOrdinary.tag h).forall_mem (fun _ => toNat_lt_of_isNamePart) (by decide)
  | _ => trivial

/-- Nothing in an ordinary page has to be encoded. -/
theorem Token.encoded_id (token : Token) : token.encoded id = token := by
  cases token <;> simp [Token.encoded, Head.encoded, Attribute.encoded]

theorem Token.IsOrdinary.isReadBack {token : Token} (h : token.IsOrdinary) :
    token.IsReadBack id := by
  cases token with
  | text content => exact spells_text h
  | closing tag => exact IsOrdinaryTag.isUsable h
  | opening head closes =>
    have hhead : head.IsOrdinary := h
    refine ⟨?_, fun attr hattr => spells_value (hhead.values attr hattr)⟩
    simpa [Head.encoded, Attribute.encoded] using hhead.isClear

end Visualforce.Markup
