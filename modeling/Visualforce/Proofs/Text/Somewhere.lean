import Mathlib.Data.List.Basic
import Visualforce.Text.Basic

/-! # Somewhere in a text

Whether something begins at a place of a text is told from what lies ahead there. That it begins
somewhere is told along the text, and where a character stops it, from the part before that
character.
-/
namespace Visualforce.Text

variable {begins : Text → Bool} {front text rest other : Text}

/-- Whether what is looked for begins at some character of the text. -/
def somewhere (begins : Text → Bool) : Text → Bool
  | [] => false
  | c :: rest => begins (c :: rest) || somewhere begins rest

theorem somewhere_of_suffix {tail : Text} (htail : tail <:+ text) (hne : tail ≠ [])
    (h : begins tail) :
    somewhere begins text := by
  induction text with
  | nil => exact absurd (List.suffix_nil.mp htail) hne
  | cons c text ih =>
    rw [somewhere, Bool.or_eq_true]
    rcases List.suffix_cons_iff.mp htail with rfl | htail
    · exact .inl h
    · exact .inr (ih htail)

theorem begins_of_suffix (h : somewhere begins text = false) {tail : Text} (htail : tail <:+ text)
    (hne : tail ≠ []) : begins tail = false := by
  rw [← Bool.not_eq_true] at h ⊢
  exact fun hbegins => h (somewhere_of_suffix htail hne hbegins)

/-- What lies behind a part does not matter for the places in it when it is kept apart from them. -/
theorem somewhere_append (h : ∀ c more, begins (c :: more ++ rest) → begins (c :: more ++ other))
    (hrest : somewhere begins rest → somewhere begins other) :
    somewhere begins (front ++ rest) → somewhere begins (front ++ other) := by
  induction front with
  | nil => exact hrest
  | cons c front ih =>
    rw [List.cons_append, List.cons_append, somewhere, somewhere, Bool.or_eq_true, Bool.or_eq_true]
    exact Or.imp (h c front) ih

/-- A part that it does not begin in, whatever lies behind, can be left out. -/
def Skips (begins : Text → Bool) (front : Text) : Prop :=
  ∀ rest, somewhere begins (front ++ rest) = somewhere begins rest

/-- What begins before the character does not depend on what lies behind it. -/
def EndsAt (begins : Text → Bool) (c : Char) : Prop :=
  ∀ first more rest other, begins (first :: more ++ c :: rest) → begins (first :: more ++ other)

theorem somewhere_mono {others : Text → Bool}
    (h : ∀ c rest, begins (c :: rest) → others (c :: rest)) :
    somewhere begins text → somewhere others text := by
  induction text with
  | nil => exact id
  | cons c text ih =>
    rw [somewhere, somewhere, Bool.or_eq_true, Bool.or_eq_true]
    exact Or.imp (h c text) ih

theorem skips_of_not_mem {mark : Char} (hbegins : ∀ c rest, begins (c :: rest) → c = mark)
    (h : mark ∉ front) :
    Skips begins front := by
  intro rest
  induction front with
  | nil => rfl
  | cons c front ih =>
    rw [List.mem_cons, not_or] at h
    have hnone : begins (c :: (front ++ rest)) = false := by
      rw [← Bool.not_eq_true]
      exact fun hc => h.1 (hbegins c _ hc).symm
    rw [List.cons_append, somewhere, hnone, Bool.false_or, ih h.2]

theorem Skips.append {second : Text} (hfirst : Skips begins front) (hsecond : Skips begins second) :
    Skips begins (front ++ second) := by
  intro rest
  rw [List.append_assoc, hfirst, hsecond]

theorem Skips.flatMap {α : Type} {write : α → Text} {parts : List α}
    (h : ∀ part ∈ parts, Skips begins (write part)) :
    Skips begins (parts.flatMap write) := by
  induction parts with
  | nil => exact fun _ => rfl
  | cons part parts ih =>
    obtain ⟨hpart, hparts⟩ := List.forall_mem_cons.mp h
    rw [List.flatMap_cons]
    exact hpart.append (ih hparts)

/-- A part in which it begins nowhere is left out up to a character at which it ends. -/
theorem EndsAt.somewhere_eq {c : Char} (h : EndsAt begins c)
    (hfront : somewhere begins front = false) (rest : Text) :
    somewhere begins (front ++ c :: rest) = somewhere begins (c :: rest) := by
  induction front with
  | nil => rfl
  | cons d front ih =>
    rw [somewhere, Bool.or_eq_false_iff] at hfront
    have hnone : begins (d :: front ++ c :: rest) = false := by
      rw [← Bool.not_eq_true]
      intro hbegins
      have hends := h d front rest [] hbegins
      rw [List.append_nil, hfront.1] at hends
      cases hends
    rw [List.cons_append, somewhere, ← List.cons_append, hnone, Bool.false_or, ih hfront.2]

/-- Where a character ends all that is read, what is read at all places lies before or behind it. -/
theorem filterMap_tails_append_cons {α : Type} {read? : Text → Option α} {c : Char}
    (hnil : read? [] = none)
    (h : ∀ first second, read? (first ++ c :: second) = read? first) (first second : Text) :
    (first ++ c :: second).tails.filterMap read? = first.tails.filterMap read? ++
    second.tails.filterMap read? := by
  induction first with
  | nil =>
    have hc : read? (c :: second) = none := (h [] second).trans hnil
    simp [hc, hnil]
  | cons d first ih =>
    have hd : read? (d :: (first ++ c :: second)) = read? (d :: first) := h (d :: first) second
    simp only [List.cons_append, List.tails, List.filterMap_cons, hd, ih]
    cases read? (d :: first) with
    | none => rfl
    | some value => rfl

/-- What comes after a run does not change when the text goes on otherwise behind a character that
is no part of the run and not what comes after it. -/
theorem dropWhile_stop {accepts : Char → Bool} {c d : Char} (hc : accepts c = false) (hne : d ≠ c)
    (h : ((text ++ c :: rest).dropWhile accepts).head? = some d) :
    text.dropWhile accepts ≠ [] ∧ ∀ other, ((text ++ other).dropWhile accepts).head? = some d := by
  rw [List.dropWhile_append] at h
  split_ifs at h with hempty
  · rw [List.dropWhile_cons_of_neg (by simp [hc]), List.head?_cons, Option.some.injEq] at h
    exact absurd h.symm hne
  · rw [List.isEmpty_iff] at hempty
    rw [List.head?_append_of_ne_nil _ hempty] at h
    refine ⟨hempty, fun other => ?_⟩
    rw [List.dropWhile_append, if_neg (by simpa using hempty), List.head?_append_of_ne_nil _ hempty,
      h]

theorem takeWhile_of_dropWhile_ne {accepts : Char → Bool} (h : text.dropWhile accepts ≠ [])
    (other : Text) :
    (text ++ other).takeWhile accepts = text.takeWhile accepts := by
  have hlength := congrArg List.length (List.takeWhile_append_dropWhile (p := accepts) (l := text))
  have hpos := List.length_pos_iff.mpr h
  rw [List.length_append] at hlength
  rw [List.takeWhile_append, if_neg (by omega)]

variable {piece : Text}

theorem isInfix_iff_somewhere (hne : piece ≠ []) : piece <:+: text ↔
    somewhere piece.isPrefixOf text := by
  induction text with
  | nil => simp [somewhere, hne]
  | cons c text ih =>
    rw [List.infix_cons_iff, somewhere, Bool.or_eq_true,
      List.isPrefixOf_iff_prefix, ih]

/-- A piece that begins before a character that it does not hold ends there. -/
theorem isPrefix_stop {c : Char} (hc : c ∉ piece) (h : piece <+: text ++ c :: rest) :
    piece <+: text := by
  obtain ⟨left, hleft⟩ := h
  obtain ⟨more, rfl, -⟩ | ⟨more, rfl, hmore⟩ := List.append_eq_append_iff.mp hleft
  · exact List.prefix_append piece more
  · cases more with
    | nil => exact ⟨[], by simp⟩
    | cons d more =>
      rw [(List.cons_eq_cons.mp hmore).1] at hc
      exact absurd (List.mem_append_right text List.mem_cons_self) hc

theorem isPrefixOf_stop {c : Char} (hc : c ∉ piece) (h : piece.isPrefixOf (text ++ c :: rest))
    (other : Text) : piece.isPrefixOf (text ++ other) := by
  rw [List.isPrefixOf_iff_prefix] at h ⊢
  exact (isPrefix_stop hc h).trans (List.prefix_append text other)

end Visualforce.Text
