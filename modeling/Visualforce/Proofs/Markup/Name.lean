import Visualforce.Markup.Namespace
import Visualforce.Proofs.Pattern.Run
import Visualforce.Proofs.Text.WordBlank

/-! # Names in markup

A part of a name is spelled with characters that every reader of names accepts, so each of them
takes it as a whole. A name is such a part, or two of them around a colon.
-/
namespace Visualforce.Markup
open Pattern Cursor

variable {κ : Type} {groups : List (κ × Span)} {before : Option Char} {rest : Text}
variable {goOn : Place κ → Option (Place κ)} {last : Place κ}

/-- A character that qualifiers and names of documents have in common. -/
def isPartChar (c : Char) : Bool := isQualifierChar c && Xml.isNameChar c

def isPart : Text → Bool
  | [] => false
  | c :: rest => isTagNameStart c && rest.all isPartChar

theorem class_of_isTagNameStart (accepts : Char → Bool) (b : Bool)
    (h : ∀ n : Fin 128, isTagNameStart (Char.ofNat n) → accepts (Char.ofNat n) = b) {c : Char}
    (hc : isTagNameStart c) : accepts c = b := by
  have hlt : c.toNat < 128 := by
    simp only [isTagNameStart, Bool.or_eq_true, beq_iff_eq] at hc
    rcases hc with hc | rfl
    · exact Text.toNat_lt_of_isAlphanum (by simp [Char.isAlphanum, hc])
    · decide
  exact Text.forall_ascii (fun c => isTagNameStart c → accepts c = b) h hlt hc

theorem isPartChar_of_isTagNameStart {c : Char} (h : isTagNameStart c) : isPartChar c = true :=
  class_of_isTagNameStart isPartChar true (by decide) h

theorem isNameStart_of_isTagNameStart {c : Char} (h : isTagNameStart c) :
    Xml.isNameStart c = true :=
  class_of_isTagNameStart Xml.isNameStart true (by decide) h

theorem isTagNameChar_of_isQualifierChar {c : Char} (h : isQualifierChar c) :
    isTagNameChar c = true := by
  simp only [isQualifierChar, isTagNameChar, Bool.or_eq_true, beq_iff_eq] at h ⊢
  rcases h with (h | rfl) | rfl
  · exact .inl (.inl (.inl h))
  · decide
  · decide

theorem isBlank_of_isQualifierChar {c : Char} (h : isQualifierChar c) : Text.isBlank c = false := by
  simp only [isQualifierChar, Bool.or_eq_true, beq_iff_eq] at h
  rcases h with (h | rfl) | rfl
  · exact Text.isBlank_of_isWord h
  · decide
  · decide

theorem isBlank_of_isTagNameChar {c : Char} (h : isTagNameChar c) : Text.isBlank c = false := by
  simp only [isTagNameChar, Bool.or_eq_true, beq_iff_eq] at h
  rcases h with ((h | rfl) | rfl) | rfl
  · exact Text.isBlank_of_isWord h
  · decide
  · decide
  · decide

theorem inRanges_le {n bound : Nat} {ranges : List (Nat × Nat)}
    (hbound : ∀ range ∈ ranges, range.2 ≤ bound)
    (h : Text.inRanges n ranges) : n ≤ bound := by
  induction ranges with
  | nil => cases h
  | cons range ranges ih =>
    obtain ⟨hrange, hranges⟩ := List.forall_mem_cons.mp hbound
    rw [Text.inRanges] at h
    split_ifs at h
    rw [Bool.or_eq_true, decide_eq_true_eq] at h
    exact h.elim (fun hle => hle.trans hrange) (ih hranges)

theorem isLegal_of_isNameChar {c : Char} (h : Xml.isNameChar c) :
    Xml.isLegal c = true ∧ 0x20 ≤ c.toNat := by
  rw [Xml.isNameChar] at h
  split_ifs at h with hascii
  · have hname : Xml.isNameChar c := by
      rw [Xml.isNameChar, if_pos hascii]
      exact h
    exact Text.forall_ascii (fun c => Xml.isNameChar c → Xml.isLegal c = true ∧ 0x20 ≤ c.toNat)
      (by decide) hascii hname
  · have hle : c.toNat ≤ 0xD7A3 := by
      rw [Bool.or_eq_true] at h
      rcases h with h | h
      · exact inRanges_le (by decide +kernel) h
      · exact inRanges_le (by decide +kernel) h
    have hlow : ¬ c.toNat < 0x20 := by omega
    refine ⟨?_, by omega⟩
    rw [Xml.isLegal, if_neg hlow]
    simp only [Bool.and_eq_true, bne_iff_ne]
    omega

section PartChar
variable {c : Char} (h : isPartChar c)
include h

theorem isQualifierChar_of_isPartChar : isQualifierChar c = true := (Bool.and_eq_true_iff.mp h).1

theorem isNameChar_of_isPartChar : Xml.isNameChar c = true := (Bool.and_eq_true_iff.mp h).2

theorem isTagNameChar_of_isPartChar : isTagNameChar c = true :=
  isTagNameChar_of_isQualifierChar (isQualifierChar_of_isPartChar h)

theorem isBlank_of_isPartChar : Text.isBlank c = false :=
  isBlank_of_isQualifierChar (isQualifierChar_of_isPartChar h)

theorem ne_of_isPartChar {mark : Char} (hmark : isPartChar mark = false) : c ≠ mark := by
  rintro rfl
  rw [h] at hmark
  cases hmark

theorem isLooseNameChar_of_isPartChar : isLooseNameChar c = true := by
  have hmarks : ∀ mark ∈ "=/>\"'".toList, isPartChar mark = false := by decide
  have hnot : "=/>\"'".toList.contains c = false := by
    rw [← Bool.not_eq_true, List.contains_iff_mem]
    exact fun hmem => ne_of_isPartChar h (hmarks c hmem) rfl
  rw [isLooseNameChar, isBlank_of_isPartChar h, hnot]
  rfl

end PartChar

section Part
variable {name : Text}

theorem exists_cons_of_isPart (h : isPart name) :
    ∃ c more, name = c :: more ∧ isTagNameStart c ∧ ∀ d ∈ more, isPartChar d := by
  cases name with
  | nil => cases h
  | cons c more =>
    simp only [isPart, Bool.and_eq_true, List.all_eq_true] at h
    exact ⟨c, more, rfl, h⟩

theorem forall_mem_of_isPart (h : isPart name) : ∀ c ∈ name, isPartChar c := by
  obtain ⟨c, more, rfl, hc, hmore⟩ := exists_cons_of_isPart h
  exact List.forall_mem_cons.mpr ⟨isPartChar_of_isTagNameStart hc, hmore⟩

theorem ne_nil_of_isPart (h : isPart name) : name ≠ [] := by
  rintro rfl
  cases h

theorem not_mem_of_isPart (h : isPart name) {mark : Char} (hmark : isPartChar mark = false) :
    mark ∉ name :=
  fun hmem => ne_of_isPartChar (forall_mem_of_isPart h mark hmem) hmark rfl

/-- A word pattern takes a whole part when that leads to a match. -/
theorem run_part_of_some {starts accepts : Char → Bool} (hname : isPart name)
    (hstarts : ∀ c, isTagNameStart c → starts c) (haccepts : ∀ c, isPartChar c → accepts c)
    (hrest : ∀ c ∈ rest.head?, accepts c = false)
    (hgo : goOn ⟨between (behind before name) rest, groups⟩ = some last) :
    (one starts ++ star (one accepts)).run ⟨between before (name ++ rest), groups⟩ goOn =
      some last := by
  obtain ⟨c, more, rfl, hc, hmore⟩ := exists_cons_of_isPart hname
  simp only [run_append, List.cons_append, run_one_cons, hstarts c hc, if_true]
  exact run_starOne_of_some (fun d hd => haccepts d (hmore d hd)) hrest hgo

theorem run_part {starts accepts : Char → Bool} (hname : isPart name)
    (hstarts : ∀ c, isTagNameStart c → starts c) (haccepts : ∀ c, isPartChar c → accepts c)
    (hrest : ∀ c ∈ rest.head?, accepts c = false)
    (hrefuse : ∀ before c rest, accepts c → goOn ⟨between before (c :: rest), groups⟩ = none) :
    (one starts ++ star (one accepts)).run ⟨between before (name ++ rest), groups⟩ goOn =
      goOn ⟨between (behind before name) rest, groups⟩ := by
  obtain ⟨c, more, rfl, hc, hmore⟩ := exists_cons_of_isPart hname
  simp only [run_append, List.cons_append, run_one_cons, hstarts c hc, if_true]
  exact run_starOne (fun d hd => haccepts d (hmore d hd)) hrest hrefuse

end Part

/-- A part or two of them around a colon. -/
inductive IsSpelling : Text → Prop where
  | simple {base : Text} (hbase : isPart base) : IsSpelling base
  | qualified {qualifier base : Text} (hqualifier : isPart qualifier) (hbase : isPart base) :
      IsSpelling (qualifier ++ ':' :: base)

namespace IsSpelling

variable {name : Text}

theorem forall_mem {property : Char → Prop} (h : IsSpelling name)
    (hpart : ∀ c, isPartChar c → property c) (hcolon : property ':') : ∀ c ∈ name, property c := by
  have hall : ∀ {part : Text}, isPart part → ∀ c ∈ part, property c :=
    fun hname c hc => hpart c (forall_mem_of_isPart hname c hc)
  cases h with
  | simple hbase => exact hall hbase
  | qualified hqualifier hbase =>
    exact List.forall_mem_append.mpr
      ⟨hall hqualifier, List.forall_mem_cons.mpr ⟨hcolon, hall hbase⟩⟩

theorem not_mem {mark : Char} (h : IsSpelling name) (hmark : isPartChar mark = false)
    (hcolon : mark ≠ ':') : mark ∉ name := by
  have hne : ∀ c ∈ name, c ≠ mark :=
    h.forall_mem (fun _ hc => ne_of_isPartChar hc hmark) hcolon.symm
  exact fun hmem => hne mark hmem rfl

theorem isTagNameChar (h : IsSpelling name) : ∀ c ∈ name, Markup.isTagNameChar c = true :=
  h.forall_mem (fun _ => isTagNameChar_of_isPartChar) (by decide)

theorem exists_cons (h : IsSpelling name) :
    ∃ c more, name = c :: more ∧ isTagNameStart c ∧ ∀ d ∈ more, Markup.isTagNameChar d := by
  have hchars := h.isTagNameChar
  cases h with
  | simple hbase =>
    obtain ⟨c, more, rfl, hc, -⟩ := exists_cons_of_isPart hbase
    exact ⟨c, more, rfl, hc, (List.forall_mem_cons.mp hchars).2⟩
  | qualified hqualifier hbase =>
    obtain ⟨c, more, rfl, hc, -⟩ := exists_cons_of_isPart hqualifier
    exact ⟨c, more ++ ':' :: _, rfl, hc, (List.forall_mem_cons.mp hchars).2⟩

theorem ne_nil (h : IsSpelling name) : name ≠ [] := by
  obtain ⟨c, more, rfl, -⟩ := h.exists_cons
  exact List.cons_ne_nil c more

end IsSpelling

end Visualforce.Markup

namespace Visualforce.Xml
open Markup

/-- A name as it is read, split at the first colon if it has one. -/
def spelled (name : Text) : WrittenName :=
  if name.contains ':' then ⟨some (name.takeWhile (· != ':')), (name.dropWhile (· != ':')).drop 1⟩
  else ⟨none, name⟩

theorem colon_ne_of_isPart {name : Text} (h : isPart name) : ∀ c ∈ name, (c != ':') = true :=
  fun c hc => bne_iff_ne.mpr (ne_of_isPartChar (forall_mem_of_isPart h c hc) (by decide))

theorem spelled_simple {base : Text} (h : isPart base) : spelled base = ⟨none, base⟩ := by
  rw [spelled, if_neg]
  rw [List.contains_iff_mem]
  exact fun hmem => bne_iff_ne.mp (colon_ne_of_isPart h _ hmem) rfl

theorem spelled_qualified {qualifier : Text} (h : isPart qualifier) (base : Text) :
    spelled (qualifier ++ ':' :: base) = ⟨some qualifier, base⟩ := by
  have hall := colon_ne_of_isPart h
  rw [spelled, if_pos (by simp), List.takeWhile_append_of_pos hall,
    List.dropWhile_append_of_pos hall]
  simp

theorem text_spelled {name : Text} (h : IsSpelling name) : (spelled name).text = name := by
  cases h with
  | simple hbase => rw [spelled_simple hbase]; rfl
  | qualified hqualifier _ => rw [spelled_qualified hqualifier]; rfl

theorem spelled_injective {first second : Text} (hfirst : IsSpelling first)
    (hsecond : IsSpelling second)
    (h : spelled first = spelled second) : first = second := by
  rw [← text_spelled hfirst, h, text_spelled hsecond]

end Visualforce.Xml

namespace Visualforce.Markup

def qualifierOf (name : Text) : List Text := (Xml.spelled name).qualifier.toList

theorem qualifierOf_simple {base : Text} (h : isPart base) : qualifierOf base = [] := by
  rw [qualifierOf, Xml.spelled_simple h]
  rfl

theorem qualifierOf_qualified {qualifier : Text} (h : isPart qualifier) (base : Text) :
    qualifierOf (qualifier ++ ':' :: base) = [qualifier] := by
  rw [qualifierOf, Xml.spelled_qualified h]
  rfl

/-- A qualifier that names may have without declaring it. -/
structure IsQualifier (qualifier : Text) : Prop where
  part : isPart qualifier
  free : isReservedQualifier qualifier = false

/-- A name whose qualifier, if it has one, may be declared. -/
structure IsUsable (name : Text) : Prop where
  spelling : IsSpelling name
  free : ∀ qualifier ∈ qualifierOf name, isReservedQualifier qualifier = false

theorem IsUsable.isQualifier {name : Text} (h : IsUsable name) :
    ∀ qualifier ∈ qualifierOf name, IsQualifier qualifier := by
  refine fun qualifier hmem => ⟨?_, h.free qualifier hmem⟩
  cases h.spelling with
  | simple hbase => simp [qualifierOf_simple hbase] at hmem
  | qualified hqualifier _ =>
    rw [qualifierOf_qualified hqualifier, List.mem_singleton] at hmem
    exact hmem ▸ hqualifier

end Visualforce.Markup
