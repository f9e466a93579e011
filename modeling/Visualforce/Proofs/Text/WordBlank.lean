import Visualforce.Text.Blank
import Visualforce.Text.Word

/-! # Word characters and blanks

No character is both part of a word and blank. The letters and digits that names are usually made of
are in ASCII.
-/
namespace Visualforce.Text

/-- What holds of all characters of ASCII is settled by looking at each of them. -/
theorem forall_ascii (property : Char → Prop) (h : ∀ n : Fin 128, property (Char.ofNat n))
    {c : Char}
    (hlt : c.toNat < 128) : property c := by
  have hchar := h ⟨c.toNat, hlt⟩
  simp only [Char.ofNat_toNat] at hchar
  exact hchar

theorem toNat_lt_of_isAlphanum {c : Char} (h : c.isAlphanum) : c.toNat < 128 := by
  have hclass : (c.isUpper || c.isLower || c.isDigit) = true := h
  rw [Bool.or_eq_true, Bool.or_eq_true] at hclass
  rcases hclass with (hupper | hlower) | hdigit
  · have hrange : 'A'.val ≤ c.val ∧ c.val ≤ 'Z'.val := of_decide_eq_true hupper
    exact Nat.lt_of_le_of_lt (UInt32.le_iff_toNat_le.mp hrange.2) (by decide)
  · have hrange : c.val ≤ 'z'.val := of_decide_eq_true (Bool.and_eq_true_iff.mp hlower).2
    exact Nat.lt_of_le_of_lt (UInt32.le_iff_toNat_le.mp hrange) (by decide)
  · have hrange : c.val ≤ '9'.val := of_decide_eq_true (Bool.and_eq_true_iff.mp hdigit).2
    exact Nat.lt_of_le_of_lt (UInt32.le_iff_toNat_le.mp hrange) (by decide)

def blankCodes : List Nat :=
  [0x09, 0x0A, 0x0B, 0x0C, 0x0D, 0x1C, 0x1D, 0x1E, 0x1F, 0x20, 0x85, 0xA0, 0x1680, 0x2000, 0x2001,
    0x2002, 0x2003, 0x2004, 0x2005, 0x2006, 0x2007, 0x2008, 0x2009, 0x200A, 0x2028, 0x2029, 0x202F,
    0x205F, 0x3000]

theorem mem_blankCodes {c : Char} (h : isBlank c) : c.toNat ∈ blankCodes := by
  simp only [isBlank, Bool.or_eq_true, Bool.and_eq_true, decide_eq_true_eq, beq_iff_eq] at h
  simp only [blankCodes, List.mem_cons, List.not_mem_nil, or_false]
  omega

/-- The ranges behind those that end below the bound. -/
def rangesFrom (bound : Nat) (ranges : List (Nat × Nat)) : List (Nat × Nat) :=
  ranges.dropWhile fun range => range.1 ≤ range.2 && range.2 < bound

theorem inRanges_rangesFrom {n bound : Nat} (h : bound ≤ n) (ranges : List (Nat × Nat)) :
    inRanges n (rangesFrom bound ranges) = inRanges n ranges := by
  induction ranges with
  | nil => rfl
  | cons range ranges ih =>
    rw [rangesFrom, List.dropWhile_cons]
    split
    · rename_i hbelow
      rw [Bool.and_eq_true, decide_eq_true_eq, decide_eq_true_eq] at hbelow
      have hlow : ¬ n < range.1 := by omega
      have hhigh : ¬ n ≤ range.2 := by omega
      rw [← rangesFrom, ih, inRanges, if_neg hlow, decide_eq_false hhigh, Bool.false_or]
    · rfl

/-- The blanks from U+1680 on stand close together, so a table is walked once up to them. -/
theorem inRanges_of_isBlank {ranges : List (Nat × Nat)} {c : Char} (h : isBlank c)
    (hge : 0x1680 ≤ c.toNat)
    (hranges : ∀ n ∈ blankCodes, 0x1680 ≤ n → inRanges n (rangesFrom 0x1680 ranges) = false) :
    inRanges c.toNat ranges = false := by
  rw [← inRanges_rangesFrom hge]
  exact hranges _ (mem_blankCodes h) hge

theorem isWord_of_isBlank {c : Char} (h : isBlank c) : isWord c = false := by
  have hlow : ∀ n ∈ blankCodes, n < 0x1680 → isWord (Char.ofNat n) = false := by decide +kernel
  rcases Nat.lt_or_ge c.toNat 0x1680 with hlt | hge
  · have hword := hlow c.toNat (mem_blankCodes h) hlt
    rwa [Char.ofNat_toNat] at hword
  · have hmark : c ≠ '_' := by
      rintro rfl
      exact absurd hge (by decide)
    have hascii : ¬ c.toNat < 0x80 := by omega
    rw [isWord, isAlphanumeric, if_neg hascii, inRanges_of_isBlank h hge (by decide +kernel),
      beq_false_of_ne hmark, Bool.or_false]

theorem isBlank_of_isWord {c : Char} (h : isWord c) : isBlank c = false := by
  rw [← Bool.not_eq_true]
  intro hblank
  rw [isWord_of_isBlank hblank] at h
  cases h

end Visualforce.Text
