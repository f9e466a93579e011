import Mathlib.Data.List.Infix
import Visualforce.Digest.Content
import Visualforce.Proofs.Text.Trim
import Visualforce.Proofs.Text.Words
import Visualforce.Text.Limit

/-! # Line ends

Unifying the line ends of a text changes nothing but its line ends. Texts that are joined are
unified one by one, unless a carriage return at the end of the first meets a line feed at the front
of the second. What treats both line ends alike does not see which of them a text has.
-/
namespace Visualforce.Digest

variable {text rest piece first second : Text} {c : Char} {accepts : Char → Bool}

def isLineEnd (c : Char) : Bool := c == '\n' || c == '\r'

theorem isLineEnd_iff : isLineEnd c = true ↔ c = '\n' ∨ c = '\r' := by
  rw [isLineEnd, Bool.or_eq_true, beq_iff_eq, beq_iff_eq]

theorem beq_lineEnd (hc : isLineEnd c = false) : ('\r' == c) = false ∧ ('\n' == c) = false := by
  refine ⟨beq_false_of_ne ?_, beq_false_of_ne ?_⟩
  · rintro rfl
    cases hc
  · rintro rfl
    cases hc

/-- No line end is in a class that has neither of the two characters. -/
theorem isLineEnd_eq_false (hreturn : accepts '\r' = false) (hfeed : accepts '\n' = false)
    (h : accepts c) : isLineEnd c = false := by
  by_contra hend
  rcases isLineEnd_iff.mp (Bool.of_not_eq_false hend) with rfl | rfl
  · rw [hfeed] at h
    cases h
  · rw [hreturn] at h
    cases h

theorem unifyLineEnds_cons (h : isLineEnd c = false) :
    unifyLineEnds (c :: rest) = c :: unifyLineEnds rest := by
  have hreturn : c ≠ '\r' := by
    rintro rfl
    cases h
  rw [unifyLineEnds]
  · exact fun _ hc => absurd hc hreturn
  · exact hreturn

@[simp] theorem unifyLineEnds_feed : unifyLineEnds ('\n' :: rest) = '\n' :: unifyLineEnds rest := by
  rw [unifyLineEnds]
  · exact fun _ hc => absurd hc (by decide)
  · decide

@[simp] theorem unifyLineEnds_return_feed : unifyLineEnds ('\r' :: '\n' :: rest) =
    '\n' :: unifyLineEnds rest := by
  rw [unifyLineEnds]

theorem unifyLineEnds_return (h : rest.head? ≠ some '\n') :
    unifyLineEnds ('\r' :: rest) = '\n' :: unifyLineEnds rest := by
  rw [unifyLineEnds]
  rintro more rfl
  exact h rfl

theorem lineEnd_induction {motive : Text → Prop} (nil : motive [])
    (pair : ∀ rest, motive rest → motive ('\r' :: '\n' :: rest))
    (single : ∀ rest, rest.head? ≠ some '\n' → motive rest → motive ('\r' :: rest))
    (feed : ∀ rest, motive rest → motive ('\n' :: rest))
    (other : ∀ c rest, isLineEnd c = false → motive rest → motive (c :: rest)) (text : Text) :
    motive text := by
  induction text using unifyLineEnds.induct with
  | case1 => exact nil
  | case2 rest ih => exact pair rest ih
  | case3 rest hrest ih =>
    refine single rest (fun hnext => ?_) ih
    obtain ⟨more, rfl⟩ := List.head?_eq_some_iff.mp hnext
    exact hrest more rfl
  | case4 c rest _ hreturn ih =>
    have hreturn : c ≠ '\r' := hreturn
    by_cases hfeed : c = '\n'
    · exact hfeed ▸ feed rest ih
    · exact other c rest (by simp [isLineEnd, hfeed, hreturn]) ih

def MeetInLineEnd (first second : Text) : Prop := first.getLast? = some '\r' ∧ second.head? =
    some '\n'

theorem MeetInLineEnd.cons (h : MeetInLineEnd rest second) : MeetInLineEnd (c :: rest) second := by
  refine ⟨?_, h.2⟩
  rw [List.getLast?_cons, h.1]
  rfl

theorem unifyLineEnds_append (h : ¬MeetInLineEnd first second) :
    unifyLineEnds (first ++ second) = unifyLineEnds first ++ unifyLineEnds second := by
  induction first using lineEnd_induction with
  | nil => rfl
  | pair rest ih =>
    rw [List.cons_append, List.cons_append, unifyLineEnds_return_feed, unifyLineEnds_return_feed,
      ih fun hmeet => h hmeet.cons.cons, List.cons_append]
  | single rest hrest ih =>
    have hhead : (rest ++ second).head? ≠ some '\n' := by
      cases rest with
      | nil => exact fun hsecond => h ⟨rfl, hsecond⟩
      | cons c rest => exact hrest
    rw [List.cons_append, unifyLineEnds_return hhead, unifyLineEnds_return hrest, ih fun hmeet =>
      h hmeet.cons, List.cons_append]
  | feed rest ih =>
    rw [List.cons_append, unifyLineEnds_feed, unifyLineEnds_feed, ih fun hmeet => h hmeet.cons,
      List.cons_append]
  | other c rest hc ih =>
    rw [List.cons_append, unifyLineEnds_cons hc, unifyLineEnds_cons hc, ih fun hmeet =>
      h hmeet.cons, List.cons_append]

theorem unifyLineEnds_append_of_head (h : second.head? ≠ some '\n') :
    unifyLineEnds (first ++ second) = unifyLineEnds first ++ unifyLineEnds second :=
  unifyLineEnds_append fun hmeet => h hmeet.2

theorem unifyLineEnds_of_forall (h : ∀ c ∈ text, isLineEnd c = false) :
    unifyLineEnds text = text := by
  induction text with
  | nil => rfl
  | cons c text ih =>
    obtain ⟨hc, htext⟩ := List.forall_mem_cons.mp h
    rw [unifyLineEnds_cons hc, ih htext]

theorem unifyLineEnds_append_left (hfirst : ∀ c ∈ first, isLineEnd c = false) :
    unifyLineEnds (first ++ second) = first ++ unifyLineEnds second := by
  rw [unifyLineEnds_append, unifyLineEnds_of_forall hfirst]
  rintro ⟨hlast, -⟩
  exact absurd (hfirst _ (List.mem_of_getLast? hlast)) (by decide)

theorem exists_of_unifyLineEnds_eq (hc : isLineEnd c = false) (h : unifyLineEnds text = c :: rest) :
    ∃ more, text = c :: more ∧ unifyLineEnds more = rest := by
  have hfeed : c ≠ '\n' := by
    rintro rfl
    cases hc
  induction text using lineEnd_induction with
  | nil => cases h
  | pair more _ =>
    exact absurd (List.cons.inj (unifyLineEnds_return_feed.symm.trans h)).1.symm
      hfeed
  | single more hmore _ =>
      exact absurd (List.cons.inj ((unifyLineEnds_return hmore).symm.trans h)).1.symm hfeed
  | feed more _ => exact absurd (List.cons.inj (unifyLineEnds_feed.symm.trans h)).1.symm hfeed
  | other d more hd _ =>
    obtain ⟨rfl, hmore⟩ := List.cons.inj ((unifyLineEnds_cons hd).symm.trans h)
    exact ⟨more, rfl, hmore⟩

theorem isPrefix_unifyLineEnds (hpiece : ∀ c ∈ piece, isLineEnd c = false) :
    piece <+: unifyLineEnds text ↔ piece <+: text := by
  constructor
  · intro h
    induction piece generalizing text with
    | nil => exact List.nil_prefix
    | cons c piece ih =>
      obtain ⟨hc, hpiece⟩ := List.forall_mem_cons.mp hpiece
      obtain ⟨rest, hrest⟩ := h
      obtain ⟨more, rfl, hmore⟩ := exists_of_unifyLineEnds_eq hc hrest.symm
      exact List.cons_prefix_cons.mpr ⟨rfl, ih hpiece (hmore ▸ List.prefix_append piece rest)⟩
  · rintro ⟨rest, rfl⟩
    rw [unifyLineEnds_append_left hpiece]
    exact List.prefix_append _ _

theorem has_unifyLineEnds (hpiece : ∀ c ∈ piece, isLineEnd c = false) (hne : piece ≠ [])
    (text : Text) :
    Text.has piece (unifyLineEnds text) = Text.has piece text := by
  have hstep (text : Text) : piece.isPrefixOf (unifyLineEnds text) = piece.isPrefixOf text := by
    rw [Bool.eq_iff_iff, List.isPrefixOf_iff_prefix, List.isPrefixOf_iff_prefix,
      isPrefix_unifyLineEnds hpiece]
  have hend {c : Char} (hc : isLineEnd c) (rest : Text) : piece.isPrefixOf (c :: rest) = false := by
    obtain ⟨d, piece, rfl⟩ := List.exists_cons_of_ne_nil hne
    have hd := hpiece d List.mem_cons_self
    rw [List.isPrefixOf_cons_cons, beq_false_of_ne, Bool.false_and]
    rintro rfl
    rw [hc] at hd
    cases hd
  have hreturn : isLineEnd '\r' := by decide
  have hfeed : isLineEnd '\n' := by decide
  induction text using lineEnd_induction with
  | nil => rfl
  | pair rest ih =>
    rw [unifyLineEnds_return_feed, Text.has, Text.has, Text.has, hend hfeed, hend hfeed,
      hend hreturn, ih, Bool.false_or, Bool.false_or]
  | single rest hrest ih =>
    rw [unifyLineEnds_return hrest, Text.has, Text.has, hend hfeed, hend hreturn, ih]
  | feed rest ih => rw [unifyLineEnds_feed, Text.has, Text.has, hend hfeed, hend hfeed, ih]
  | other c rest hc ih =>
    have hbegins := hstep (c :: rest)
    rw [unifyLineEnds_cons hc] at hbegins ⊢
    rw [Text.has, Text.has, hbegins, ih]

theorem any_has_unifyLineEnds {marks : List Text}
    (h : ∀ mark ∈ marks, mark ≠ [] ∧ ∀ c ∈ mark, isLineEnd c = false)
    (text : Text) : marks.any (Text.has · (unifyLineEnds text)) = marks.any (Text.has · text) := by
  induction marks with
  | nil => rfl
  | cons mark marks ih =>
    obtain ⟨⟨hne, hmark⟩, hmarks⟩ := List.forall_mem_cons.mp h
    rw [List.any_cons, List.any_cons, has_unifyLineEnds hmark hne, ih hmarks]

theorem exists_feed_of_isLineEnd (h : isLineEnd c) (rest : Text) :
    ∃ more, unifyLineEnds (c :: rest) = '\n' :: unifyLineEnds more := by
  rcases isLineEnd_iff.mp h with rfl | rfl
  · exact ⟨rest, unifyLineEnds_feed⟩
  · by_cases hrest : rest.head? = some '\n'
    · obtain ⟨more, rfl⟩ := List.head?_eq_some_iff.mp hrest
      exact ⟨more, unifyLineEnds_return_feed⟩
    · exact ⟨rest, unifyLineEnds_return hrest⟩

/-- A text is empty, begins with a line end or with any other character. -/
inductive Front (text : Text) : Prop where
  | nil (htext : text = []) (hother : unifyLineEnds text = [])
  | lineEnd {c : Char} {rest more : Text} (hc : isLineEnd c) (htext : text = c :: rest)
      (hother : unifyLineEnds text = '\n' :: unifyLineEnds more)
  | char {c : Char} {rest : Text} (hc : isLineEnd c = false) (htext : text = c :: rest)
      (hother : unifyLineEnds text = c :: unifyLineEnds rest)

theorem front (text : Text) : Front text := by
  cases text with
  | nil => exact .nil rfl rfl
  | cons c rest =>
    cases hc : isLineEnd c with
    | true =>
      obtain ⟨more, hmore⟩ := exists_feed_of_isLineEnd hc rest
      exact .lineEnd hc rfl hmore
    | false => exact .char hc rfl (unifyLineEnds_cons hc)

/-- Whether a text begins with a character that ends no line can be seen in both texts. -/
theorem cons_or_not (hc : isLineEnd c = false) (text : Text) :
    (∃ rest, text = c :: rest ∧ unifyLineEnds text = c :: unifyLineEnds rest) ∨
      text.head? ≠ some c ∧ (unifyLineEnds text).head? ≠ some c := by
  by_cases h : ∃ rest, text = c :: rest
  · obtain ⟨rest, rfl⟩ := h
    exact .inl ⟨rest, rfl, unifyLineEnds_cons hc⟩
  · refine .inr ⟨fun hhead => ?_, fun hhead => ?_⟩
    · obtain ⟨rest, hrest⟩ := List.head?_eq_some_iff.mp hhead
      exact h ⟨rest, hrest⟩
    · obtain ⟨rest, hrest⟩ := List.head?_eq_some_iff.mp hhead
      obtain ⟨more, hmore, -⟩ := exists_of_unifyLineEnds_eq hc hrest
      exact h ⟨more, hmore⟩

def unified (c : Char) : Char := if isLineEnd c then '\n' else c

theorem apply_unified (h : accepts '\r' = accepts '\n') (c : Char) :
    accepts (unified c) = accepts c := by
  rw [unified]
  split_ifs with hc
  · rcases isLineEnd_iff.mp hc with rfl | rfl
    · rfl
    · exact h.symm
  · rfl

/-- A character that is not the first of a line end of two is unified by itself. -/
theorem unifyLineEnds_single (h : ¬(c = '\r' ∧ rest.head? = some '\n')) :
    unifyLineEnds (c :: rest) = unified c :: unifyLineEnds rest := by
  cases hc : isLineEnd c with
  | true =>
    rw [unified, if_pos hc]
    rcases isLineEnd_iff.mp hc with rfl | rfl
    · exact unifyLineEnds_feed
    · exact unifyLineEnds_return fun hfeed => h ⟨rfl, hfeed⟩
  | false =>
    rw [unified, hc, unifyLineEnds_cons hc]
    rfl

theorem head?_unifyLineEnds (text : Text) :
    (unifyLineEnds text).head? = text.head?.map unified := by
  cases text with
  | nil => rfl
  | cons c rest =>
    cases hc : isLineEnd c with
    | true =>
      obtain ⟨more, hmore⟩ := exists_feed_of_isLineEnd hc rest
      rw [hmore, List.head?_cons, List.head?_cons, Option.map_some, unified, if_pos hc]
    | false =>
      rw [unifyLineEnds_cons hc, List.head?_cons, List.head?_cons, Option.map_some, unified, hc]
      rfl

theorem unifyLineEnds_eq_nil_iff : unifyLineEnds text = [] ↔ text = [] := by
  rw [← List.head?_eq_none_iff, head?_unifyLineEnds, Option.map_eq_none_iff, List.head?_eq_none_iff]

theorem unifyLineEnds_eq_iff_of_forall (hpiece : ∀ c ∈ piece, isLineEnd c = false) :
    unifyLineEnds text = piece ↔ text = piece := by
  constructor
  · intro h
    induction piece generalizing text with
    | nil => exact unifyLineEnds_eq_nil_iff.mp h
    | cons c piece ih =>
      obtain ⟨hc, hpiece⟩ := List.forall_mem_cons.mp hpiece
      obtain ⟨more, rfl, hmore⟩ := exists_of_unifyLineEnds_eq hc h
      rw [ih hpiece hmore]
  · rintro rfl
    exact unifyLineEnds_of_forall hpiece

theorem isEmpty_unifyLineEnds (text : Text) : (unifyLineEnds text).isEmpty = text.isEmpty := by
  rw [Bool.eq_iff_iff, List.isEmpty_iff, List.isEmpty_iff, unifyLineEnds_eq_nil_iff]

theorem nonEmpty?_unifyLineEnds (text : Text) :
    nonEmpty? (unifyLineEnds text) = (nonEmpty? text).map unifyLineEnds := by
  have hsome {text : Text} (h : text ≠ []) : nonEmpty? text = some text := by
    cases text with
    | nil => exact absurd rfl h
    | cons c rest => rfl
  by_cases hnil : text = []
  · rw [hnil]
    rfl
  · rw [hsome hnil, hsome (mt unifyLineEnds_eq_nil_iff.mp hnil), Option.map_some]

theorem any_head?_unifyLineEnds (h : accepts '\r' = accepts '\n') (text : Text) :
    (unifyLineEnds text).head?.any accepts = text.head?.any accepts := by
  rw [head?_unifyLineEnds]
  cases text.head? with
  | none => rfl
  | some c => exact apply_unified h c

theorem getLast?_unifyLineEnds (text : Text) :
    (unifyLineEnds text).getLast? = text.getLast?.map unified := by
  have hcons {c : Char} {rest : Text}
      (hrest : (unifyLineEnds rest).getLast? = rest.getLast?.map unified) :
      (unified c :: unifyLineEnds rest).getLast? = (c :: rest).getLast?.map unified := by
    rw [List.getLast?_cons, List.getLast?_cons, hrest, Option.map_some, Option.getD_map]
  induction text using lineEnd_induction with
  | nil => rfl
  | pair rest ih =>
    have hpair := hcons (c := '\n') ih
    rw [unifyLineEnds_return_feed, List.getLast?_cons_cons, ← hpair]
    rfl
  | single rest hrest ih => exact unifyLineEnds_return hrest ▸ hcons (c := '\r') ih
  | feed rest ih =>
    rw [unifyLineEnds_feed]
    exact hcons (c := '\n') ih
  | other c rest hc ih =>
    have hkeep : unified c = c := by rw [unified, hc]; rfl
    have hother := hcons (c := c) ih
    rwa [hkeep, ← unifyLineEnds_cons hc] at hother

theorem return_not_mem_unifyLineEnds (text : Text) : '\r' ∉ unifyLineEnds text := by
  induction text using lineEnd_induction with
  | nil => exact List.not_mem_nil
  | pair rest ih =>
    rw [unifyLineEnds_return_feed]
    exact List.not_mem_cons_of_ne_of_not_mem (by decide) ih
  | single rest hrest ih =>
    rw [unifyLineEnds_return hrest]
    exact List.not_mem_cons_of_ne_of_not_mem (by decide) ih
  | feed rest ih =>
    rw [unifyLineEnds_feed]
    exact List.not_mem_cons_of_ne_of_not_mem (by decide) ih
  | other c rest hc ih =>
    rw [unifyLineEnds_cons hc]
    refine List.not_mem_cons_of_ne_of_not_mem ?_ ih
    rintro rfl
    cases hc

/-- Only carriage returns are changed. -/
theorem unifyLineEnds_eq_self_iff : unifyLineEnds text = text ↔ '\r' ∉ text := by
  refine ⟨fun h => h ▸ return_not_mem_unifyLineEnds text, fun h => ?_⟩
  induction text with
  | nil => rfl
  | cons c rest ih =>
    obtain ⟨hc, hrest⟩ := not_or.mp (mt List.mem_cons.mpr h)
    by_cases hfeed : c = '\n'
    · rw [hfeed, unifyLineEnds_feed, ih hrest]
    · rw [unifyLineEnds_cons (by simp [isLineEnd, hfeed, Ne.symm hc]), ih hrest]

@[simp] theorem unifyLineEnds_unifyLineEnds (text : Text) :
    unifyLineEnds (unifyLineEnds text) = unifyLineEnds text :=
  unifyLineEnds_eq_self_iff.mpr (return_not_mem_unifyLineEnds text)

theorem length_unifyLineEnds_le (text : Text) : (unifyLineEnds text).length ≤ text.length := by
  induction text using lineEnd_induction with
  | nil => exact Nat.le_refl _
  | pair rest ih => rw [unifyLineEnds_return_feed]; exact Nat.succ_le_succ (Nat.le_succ_of_le ih)
  | single rest hrest ih => rw [unifyLineEnds_return hrest]; exact Nat.succ_le_succ ih
  | feed rest ih => rw [unifyLineEnds_feed]; exact Nat.succ_le_succ ih
  | other c rest hc ih => rw [unifyLineEnds_cons hc]; exact Nat.succ_le_succ ih

theorem mem_unifyLineEnds (hc : isLineEnd c = false) : c ∈ unifyLineEnds text ↔ c ∈ text := by
  have hreturn : c ≠ '\r' := by rintro rfl; cases hc
  have hfeed : c ≠ '\n' := by rintro rfl; cases hc
  induction text using lineEnd_induction with
  | nil => exact Iff.rfl
  | pair rest ih => simp [ih, hreturn, hfeed]
  | single rest hrest ih => simp [unifyLineEnds_return hrest, ih, hreturn, hfeed]
  | feed rest ih => simp [ih, hfeed]
  | other d rest hd ih => simp [unifyLineEnds_cons hd, ih]

theorem contains_unifyLineEnds (hc : isLineEnd c = false) (text : Text) :
    (unifyLineEnds text).contains c = text.contains c := by
  rw [Bool.eq_iff_iff, List.contains_iff_mem, List.contains_iff_mem, mem_unifyLineEnds hc]

theorem all_unifyLineEnds (h : accepts '\r' = accepts '\n') (text : Text) :
    (unifyLineEnds text).all accepts = text.all accepts := by
  induction text using lineEnd_induction with
  | nil => rfl
  | pair rest ih =>
    rw [unifyLineEnds_return_feed, List.all_cons, List.all_cons, List.all_cons, ih, h,
      ← Bool.and_assoc, Bool.and_self]
  | single rest hrest ih =>
    rw [unifyLineEnds_return hrest, List.all_cons, List.all_cons, ih, h]
  | feed rest ih => rw [unifyLineEnds_feed, List.all_cons, List.all_cons, ih]
  | other c rest hc ih => rw [unifyLineEnds_cons hc, List.all_cons, List.all_cons, ih]

theorem dropWhile_unifyLineEnds (h : accepts '\r' = accepts '\n') (text : Text) :
    (unifyLineEnds text).dropWhile accepts = unifyLineEnds (text.dropWhile accepts) := by
  induction text using lineEnd_induction with
  | nil => rfl
  | pair rest ih =>
    rw [unifyLineEnds_return_feed, List.dropWhile_cons, List.dropWhile_cons, List.dropWhile_cons, h]
    split_ifs
    · exact ih
    · rw [unifyLineEnds_return_feed]
  | single rest hrest ih =>
    rw [unifyLineEnds_return hrest, List.dropWhile_cons, List.dropWhile_cons, h]
    split_ifs
    · exact ih
    · rw [unifyLineEnds_return hrest]
  | feed rest ih =>
    rw [unifyLineEnds_feed, List.dropWhile_cons, List.dropWhile_cons]
    split_ifs
    · exact ih
    · rw [unifyLineEnds_feed]
  | other c rest hc ih =>
    rw [unifyLineEnds_cons hc, List.dropWhile_cons, List.dropWhile_cons]
    split_ifs
    · exact ih
    · rw [unifyLineEnds_cons hc]

/-- A run of characters that are no line ends. -/
theorem takeWhile_unifyLineEnds (hreturn : accepts '\r' = false) (hfeed : accepts '\n' = false)
    (text : Text) : (unifyLineEnds text).takeWhile accepts = text.takeWhile accepts := by
  induction text using lineEnd_induction with
  | nil => rfl
  | pair rest _ =>
    rw [unifyLineEnds_return_feed, List.takeWhile_cons_of_neg (by simp [hfeed]),
      List.takeWhile_cons_of_neg (by simp [hreturn])]
  | single rest hrest _ =>
    rw [unifyLineEnds_return hrest, List.takeWhile_cons_of_neg (by simp [hfeed]),
      List.takeWhile_cons_of_neg (by simp [hreturn])]
  | feed rest _ =>
    rw [unifyLineEnds_feed, List.takeWhile_cons_of_neg (by simp [hfeed]),
      List.takeWhile_cons_of_neg (by simp [hfeed])]
  | other c rest hc ih =>
    rw [unifyLineEnds_cons hc, List.takeWhile_cons, List.takeWhile_cons, ih]

theorem not_isBlank_unified (h : Text.isBlank c = false) : Text.isBlank (unified c) = false := by
  have hc : isLineEnd c = false := by
    by_contra hend
    rcases isLineEnd_iff.mp (Bool.of_not_eq_false hend) with rfl | rfl
    · revert h
      decide
    · revert h
      decide
  rw [unified, hc]
  exact h

theorem trim_unifyLineEnds (text : Text) :
    Text.trim (unifyLineEnds text) = unifyLineEnds (Text.trim text) := by
  by_cases hnil : Text.trim text = []
  · rw [hnil, unifyLineEnds, Text.trim_eq_nil_iff, Text.isBlankText, all_unifyLineEnds (by decide)]
    exact Text.trim_eq_nil_iff.mp hnil
  obtain ⟨front, back, htext, hfront, hback⟩ := Text.exists_blanks text
  have hblank {part : Text} (h : ∀ c ∈ part, Text.isBlank c) :
      ∀ c ∈ unifyLineEnds part, Text.isBlank c := by
    have hall : (unifyLineEnds part).all Text.isBlank = part.all Text.isBlank :=
      all_unifyLineEnds (by decide) part
    rw [List.all_eq_true.mpr h] at hall
    exact List.all_eq_true.mp hall
  have hsplit : unifyLineEnds text =
      unifyLineEnds front ++ (unifyLineEnds (Text.trim text) ++ unifyLineEnds back) := by
    conv_lhs => rw [htext]
    rw [unifyLineEnds_append, unifyLineEnds_append]
    · rintro ⟨hlast, -⟩
      exact absurd (Text.getLast?_trim hlast) (by decide)
    · rintro ⟨-, hhead⟩
      rw [List.head?_append_of_ne_nil _ hnil] at hhead
      exact absurd (Text.head?_trim hhead) (by decide)
  rw [hsplit]
  refine Text.trim_padded (hblank hfront) (Text.isTrimmed_of_ends ?_ ?_)
    (mt unifyLineEnds_eq_nil_iff.mp hnil) (hblank hback)
  · intro c hc
    rw [head?_unifyLineEnds, Option.mem_def, Option.map_eq_some_iff] at hc
    obtain ⟨d, hd, rfl⟩ := hc
    exact not_isBlank_unified (Text.head?_trim hd)
  · intro c hc
    rw [getLast?_unifyLineEnds, Option.mem_def, Option.map_eq_some_iff] at hc
    obtain ⟨d, hd, rfl⟩ := hc
    exact not_isBlank_unified (Text.getLast?_trim hd)

theorem filled_unifyLineEnds (pieces : List Text) :
    ((pieces.map unifyLineEnds).map Text.trim).filter (!·.isEmpty) =
      ((pieces.map Text.trim).filter (!·.isEmpty)).map unifyLineEnds := by
  induction pieces with
  | nil => rfl
  | cons piece pieces ih =>
    rw [List.map_cons, List.map_cons, List.map_cons, List.filter_cons, List.filter_cons, ih,
      trim_unifyLineEnds, isEmpty_unifyLineEnds]
    split_ifs
    · rfl
    · rfl

/-- How the lines of a text end makes no difference to its words. -/
theorem words_unifyLineEnds (text : Text) : Text.words (unifyLineEnds text) = Text.words text := by
  suffices h : ∀ front, Text.words (front ++ unifyLineEnds text) = Text.words (front ++ text) from
    h []
  have hend {c : Char} (hc : isLineEnd c) (front rest : Text) :
      Text.words (front ++ c :: rest) = Text.words front ++ Text.words rest := by
    refine Text.words_append_cons front ?_
    rcases isLineEnd_iff.mp hc with rfl | rfl <;> decide
  induction text using lineEnd_induction with
  | nil => exact fun _ => rfl
  | pair rest ih =>
    intro front
    rw [unifyLineEnds_return_feed, hend rfl, hend rfl, ← List.nil_append ('\n' :: rest), hend rfl,
      ← List.nil_append (unifyLineEnds rest), ih]
    rfl
  | single rest hrest ih =>
    intro front
    rw [unifyLineEnds_return hrest, hend rfl, hend rfl, ← List.nil_append (unifyLineEnds rest), ih]
    rfl
  | feed rest ih =>
    intro front
    rw [unifyLineEnds_feed, hend rfl, hend rfl, ← List.nil_append (unifyLineEnds rest), ih]
    rfl
  | other c rest hc ih =>
    intro front
    rw [unifyLineEnds_cons hc, List.append_cons, ih, ← List.append_cons]

theorem collapse_unifyLineEnds (text : Text) :
    Text.collapse (unifyLineEnds text) = Text.collapse text := by
  rw [Text.collapse, Text.collapse, words_unifyLineEnds]

theorem splitWhere_unifyLineEnds {isBreak : Char → Bool} (hreturn : isBreak '\r' = false)
    (hfeed : isBreak '\n' = false) (text : Text) :
    Text.splitWhere isBreak (unifyLineEnds text) =
      (Text.splitWhere isBreak text).map unifyLineEnds := by
  have hunbroken {piece : Text} (h : ∀ c ∈ piece, isBreak c = false) :
      ∀ c ∈ unifyLineEnds piece, isBreak c = false := by
    have hsame : (unifyLineEnds piece).all (!isBreak ·) = piece.all (!isBreak ·) :=
      all_unifyLineEnds (by rw [hreturn, hfeed]) piece
    have hall : piece.all (!isBreak ·) := List.all_eq_true.mpr fun c hc => by rw [h c hc]; rfl
    rw [hall, List.all_eq_true] at hsame
    exact fun c hc => (Bool.not_eq_true' _).mp (hsame c hc)
  induction hlength : text.length using Nat.strong_induction_on generalizing text with
  | _ n ih =>
    by_cases hmem : ∃ c ∈ text, isBreak c
    · obtain ⟨c, hc, hbreak⟩ := hmem
      obtain ⟨front, rest, rfl⟩ := List.append_of_mem hc
      have hend : isLineEnd c = false := isLineEnd_eq_false hreturn hfeed hbreak
      have hhead : (c :: rest).head? ≠ some '\n' := by
        rintro ⟨⟩
        cases hend
      rw [List.length_append, List.length_cons] at hlength
      rw [unifyLineEnds_append_of_head hhead, unifyLineEnds_cons hend,
        Text.splitWhere_append_cons _ hbreak, Text.splitWhere_append_cons _ hbreak,
        ih front.length (by omega) front rfl, ih rest.length (by omega) rest rfl, List.map_append]
    · simp only [not_exists, not_and, Bool.not_eq_true] at hmem
      rw [Text.splitWhere_of_unbroken hmem, Text.splitWhere_of_unbroken (hunbroken hmem)]
      rfl

variable {limit : Int} {n : Nat}

theorem return_not_mem_truncate (limit : Int) (h : '\r' ∉ text) :
    '\r' ∉ Text.truncate limit Text.ellipsis text := by
  have hmark : '\r' ∉ Text.ellipsis := by decide
  have htake (n : Nat) : '\r' ∉ text.take n := fun hmem => h (List.mem_of_mem_take hmem)
  rw [Text.truncate, Text.upTo]
  split_ifs
  · exact h
  · exact List.not_mem_append (htake _) hmark
  · exact List.not_mem_append (htake _) hmark

theorem unifyLineEnds_of_take (h : '\r' ∉ text.take n) :
    unifyLineEnds text = text.take n ++ unifyLineEnds (text.drop n) := by
  conv_lhs => rw [← List.take_append_drop n text]
  rw [unifyLineEnds_append fun hmeet => h (List.mem_of_getLast? hmeet.1),
    unifyLineEnds_eq_self_iff.mpr h]

/-- A text that shows no carriage return up to a limit is cut alike with its line ends unified. -/
theorem truncate_unifyLineEnds (hlimit : 0 ≤ limit)
    (h : '\r' ∉ Text.truncate limit Text.ellipsis text) :
    Text.truncate limit Text.ellipsis (unifyLineEnds text) =
      Text.truncate limit Text.ellipsis text := by
  obtain ⟨n, rfl⟩ := Int.eq_ofNat_of_zero_le hlimit
  have hcut {text : Text} (hlong : n < text.length) :
      Text.truncate n Text.ellipsis text = text.take n ++ Text.ellipsis := by
    rw [Text.truncate, if_neg (by omega), Text.upTo, if_pos hlimit, Int.toNat_natCast]
  by_cases hlong : n < text.length
  · rw [hcut hlong] at h ⊢
    have hunified := unifyLineEnds_of_take (fun hmem => h (List.mem_append_left _ hmem))
    have htake : (text.take n).length = n := List.length_take_of_le (by omega)
    have hrest : 0 < (unifyLineEnds (text.drop n)).length := by
      rw [List.length_pos_iff, Ne, unifyLineEnds_eq_nil_iff, List.drop_eq_nil_iff]
      omega
    rw [hcut (by rw [hunified, List.length_append]; omega), hunified]
    rw [List.take_append_of_le_length (by omega), List.take_of_length_le (by omega)]
  · have hwhole : Text.truncate n Text.ellipsis text = text := if_pos (by omega)
    rw [hwhole] at h ⊢
    rw [unifyLineEnds_eq_self_iff.mpr h, hwhole]

end Visualforce.Digest
