import Mathlib.Data.List.Infix
import Mathlib.Data.List.TakeWhile
import Visualforce.Text.Basic

/-! # Pieces of a text

Where a fixed piece can begin in a text, when the piece is not part of it, and where a run of
characters ends, when a character that stops it is ahead.
-/
namespace Visualforce.Text

variable {piece text rest : Text}

theorem has_iff_isInfix {piece : Text} : has piece text = true ↔ piece <:+: text := by
  induction text with
  | nil => rw [has, List.isEmpty_iff, List.infix_nil]
  | cons c text ih => rw [has, Bool.or_eq_true, List.isPrefixOf_iff_prefix, ih, List.infix_cons_iff]

theorem not_of_mem_head?_dropWhile {accepts : Char → Bool} {c : Char}
    (h : c ∈ (text.dropWhile accepts).head?) :
    accepts c = false := by
  have hnot := List.head?_dropWhile_not accepts text
  rwa [Option.mem_def.mp h] at hnot

theorem takeWhile_append_cons {accepts : Char → Bool} {c : Char} (hc : accepts c = false)
    (first second : Text) :
    (first ++ c :: second).takeWhile accepts = first.takeWhile accepts := by
  induction first with
  | nil => exact List.takeWhile_cons_of_neg (by simp [hc])
  | cons d first ih => rw [List.cons_append, List.takeWhile_cons, List.takeWhile_cons, ih]

theorem dropPrefix?_eq_some_iff : text.dropPrefix? piece = some rest ↔ text = piece ++ rest := by
  simp [List.dropPrefix?_eq_some_iff]

theorem dropPrefix?_append (piece rest : Text) : (piece ++ rest).dropPrefix? piece = some rest :=
  dropPrefix?_eq_some_iff.mpr rfl

theorem dropPrefix?_of_not_isPrefix (h : ¬ piece <+: text) : text.dropPrefix? piece = none :=
  Option.eq_none_iff_forall_ne_some.mpr fun rest hrest =>
    h ⟨rest, (dropPrefix?_eq_some_iff.mp hrest).symm⟩

/-- A piece that a text does not begin with begins there only if it goes on over the end of the
text. -/
theorem not_isPrefix_append (h : ¬ piece <+: text) (hne : text ≠ [])
    (hrest : ∀ c ∈ rest.head?, c ∉ piece.tail) : ¬ piece <+: text ++ rest := by
  rintro ⟨left, hleft⟩
  obtain ⟨more, hmore, rfl⟩ | ⟨more, rfl, hmore⟩ := List.append_eq_append_iff.mp hleft
  · exact h ⟨more, hmore.symm⟩
  · cases more with
    | nil => exact h ⟨[], by simp⟩
    | cons c more =>
      refine hrest c (by rw [hmore]; rfl) ?_
      rw [List.tail_append_of_ne_nil hne]
      exact List.mem_append_right _ List.mem_cons_self

/-- A piece lies on one side of a character that it does not hold. -/
theorem isInfix_append_cons {c : Char} {second : Text} (hc : c ∉ piece)
    (h : piece <:+: text ++ c :: second) : piece <:+: text ∨ piece <:+: second := by
  obtain ⟨before, after, h⟩ := h
  rw [List.append_assoc] at h
  obtain ⟨more, rfl, hmore⟩ | ⟨more, rfl, hmore⟩ := List.append_eq_append_iff.mp h
  · obtain ⟨left, rfl, -⟩ | ⟨left, rfl, hleft⟩ := List.append_eq_append_iff.mp hmore
    · exact .inl ⟨before, left, by simp⟩
    · cases left with
      | nil => exact .inl ⟨before, [], by simp⟩
      | cons d left =>
        obtain ⟨rfl, -⟩ := List.cons_eq_cons.mp hleft
        exact absurd (by simp) hc
  · cases more with
    | nil =>
      cases piece with
      | nil => exact .inl (List.nil_infix)
      | cons d piece =>
        obtain ⟨rfl, -⟩ := List.cons_eq_cons.mp hmore
        exact absurd List.mem_cons_self hc
    | cons d more =>
      obtain ⟨-, rfl⟩ := List.cons_eq_cons.mp hmore
      exact .inr ⟨more, after, by simp⟩

/-- A character stands behind what does not hold it. -/
theorem exists_of_append_eq_cons {c : Char} {front passed more : Text} (hc : c ∉ passed)
    (h : passed ++ rest = front ++ c :: more) : ∃ left, front = passed ++ left ∧ rest = left ++
    c :: more := by
  obtain ⟨left, hfront, hrest⟩ | ⟨left, rfl, hrest⟩ := List.append_eq_append_iff.mp h
  · exact ⟨left, hfront, hrest⟩
  · cases left with
    | nil => exact ⟨[], by simp, hrest.symm⟩
    | cons d left =>
      obtain ⟨rfl, -⟩ := List.cons_eq_cons.mp hrest
      exact absurd (by simp) hc

/-- A piece begins behind what does not hold its first character. -/
theorem isInfix_of_not_mem {c : Char} {front : Text} (hc : c ∉ front)
    (h : c :: piece <:+: front ++ rest) :
    c :: piece <:+: rest := by
  induction front with
  | nil => exact h
  | cons d front ih =>
    rcases List.infix_cons_iff.mp h with hbegins | h
    · exact absurd (List.cons_prefix_cons.mp hbegins).1 (List.ne_of_not_mem_cons hc)
    · exact ih (List.not_mem_of_not_mem_cons hc) h

theorem exists_first_isInfix (hne : piece ≠ []) (h : piece <:+: text) :
    ∃ front left, text = front ++ (piece ++ left) ∧ ¬ piece <:+: front := by
  induction text with
  | nil => exact absurd (List.infix_nil.mp h) hne
  | cons c text ih =>
    by_cases hbegins : piece <+: c :: text
    · obtain ⟨left, hleft⟩ := hbegins
      exact ⟨[], left, hleft.symm, fun hnil => hne (List.infix_nil.mp hnil)⟩
    · obtain ⟨front, left, rfl, hfront⟩ := ih ((List.infix_cons_iff.mp h).resolve_left hbegins)
      refine ⟨c :: front, left, rfl, fun hmem => ?_⟩
      rcases List.infix_cons_iff.mp hmem with hcons | hmem
      · exact hbegins (hcons.trans (List.prefix_append (c :: front) (piece ++ left)))
      · exact hfront hmem

/-- A mark of two equal characters and another one does not begin in a text without it that it
follows. -/
theorem not_isPrefix_append_mark {c d : Char} (hne : c ≠ d) (h : ¬ [c, c, d] <:+: text)
    (htext : text ≠ [])
    (rest : Text) : ¬ [c, c, d] <+: text ++ c :: c :: d :: rest := by
  intro hmark
  match text, htext with
  | [first], _ =>
    simp only [List.cons_append, List.nil_append, List.cons_prefix_cons] at hmark
    exact hne hmark.2.2.1.symm
  | [first, second], _ =>
    simp only [List.cons_append, List.nil_append, List.cons_prefix_cons] at hmark
    exact hne hmark.2.2.1.symm
  | first :: second :: third :: more, _ =>
    simp only [List.cons_append, List.cons_prefix_cons] at hmark
    obtain ⟨rfl, rfl, rfl, -⟩ := hmark
    exact h ⟨[], more, rfl⟩

/-- Where a run of dropped characters ends when a character that stays is reached. -/
theorem exists_suffix_dropWhile (drops : Char → Bool) (passed : Text) {c : Char}
    (hc : drops c = false)
    (rest : Text) : ∃ left, left <:+ passed ∧
      (passed ++ c :: rest).dropWhile drops = left ++ c :: rest := by
  refine ⟨passed.dropWhile drops, List.dropWhile_suffix _, ?_⟩
  rw [List.dropWhile_append]
  split
  · rename_i hempty
    rw [List.dropWhile_cons_of_neg (by simp [hc]), List.isEmpty_iff.mp hempty, List.nil_append]
  · rfl

theorem head?_append_ne {left rest : Text} {mark : Char} (hleft : mark ∉ left)
    (hrest : rest.head? ≠ some mark) : (left ++ rest).head? ≠ some mark := by
  cases left with
  | nil => exact hrest
  | cons c left =>
    intro h
    cases h
    exact hleft List.mem_cons_self

end Visualforce.Text
