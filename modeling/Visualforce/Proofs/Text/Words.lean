import Mathlib.Data.List.Infix
import Mathlib.Data.List.TakeWhile
import Visualforce.Text.Blank

/-! # Words and single spaces

Words with a blank behind each of them are told apart again, and a text whose words stand a single
space apart is not changed when its blanks are collapsed.
-/
namespace Visualforce.Text

variable {isBreak : Char → Bool} {word rest text : Text}

theorem splitWhere_cons (d : Char) (text : Text) : splitWhere isBreak (d :: text) =
    if isBreak d then [] :: splitWhere isBreak text
    else match splitWhere isBreak text with
      | [] => [[d]]
      | piece :: others => (d :: piece) :: others := rfl

theorem splitWhere_ne_nil (text : Text) : splitWhere isBreak text ≠ [] := by
  cases text with
  | nil => exact List.cons_ne_nil _ _
  | cons d text =>
    rw [splitWhere_cons]
    split_ifs
    · exact List.cons_ne_nil _ _
    · split
      · exact List.cons_ne_nil _ _
      · exact List.cons_ne_nil _ _

theorem splitWhere_append_cons {c : Char} (front : Text) (hc : isBreak c) :
    splitWhere isBreak (front ++ c :: rest) = splitWhere isBreak front ++
      splitWhere isBreak rest := by
  induction front with
  | nil =>
    rw [List.nil_append, splitWhere_cons, if_pos hc]
    rfl
  | cons d front ih =>
    have hne : splitWhere isBreak front ≠ [] := splitWhere_ne_nil front
    obtain ⟨piece, others, hfront⟩ := List.exists_cons_of_ne_nil hne
    rw [List.cons_append, splitWhere_cons, splitWhere_cons, ih, hfront]
    split_ifs
    · rfl
    · rfl

theorem splitWhere_of_unbroken (h : ∀ c ∈ text, isBreak c = false) :
    splitWhere isBreak text = [text] := by
  induction text with
  | nil => rfl
  | cons c text ih =>
    obtain ⟨hc, htext⟩ := List.forall_mem_cons.mp h
    rw [splitWhere_cons, ih htext, hc]
    rfl

theorem words_append_cons {c : Char} (front : Text) (hc : isBlank c) :
    words (front ++ c :: rest) = words front ++ words rest := by
  rw [words, splitWhere_append_cons front hc, List.filter_append]
  rfl

theorem words_blank_append (h : ∀ c ∈ text, isBlank c) (rest : Text) :
    words (text ++ rest) = words rest := by
  induction text with
  | nil => rfl
  | cons c text ih =>
    obtain ⟨hc, htext⟩ := List.forall_mem_cons.mp h
    exact (words_append_cons [] hc).trans (ih htext)

theorem words_of_blank (h : ∀ c ∈ text, isBlank c) : words text = [] := by
  rw [← List.append_nil text, words_blank_append h]
  rfl

/-- A text of at least one character none of which is blank. -/
structure IsOneWord (word : Text) : Prop where
  nonempty : word ≠ []
  solid : ∀ c ∈ word, isBlank c = false

theorem IsOneWord.words_eq (h : IsOneWord word) : words word = [word] := by
  rw [words, splitWhere_of_unbroken h.solid]
  simpa using h.nonempty

theorem IsOneWord.words_append (h : IsOneWord word) (rest : Text) :
    words (word ++ ' ' :: rest) = word :: words rest := by
  rw [words_append_cons word (by decide), h.words_eq]
  rfl

theorem words_of_front (h : text.takeWhile (!isBlank ·) ≠ []) :
    words text = text.takeWhile (!isBlank ·) :: words (text.dropWhile (!isBlank ·)) := by
  have hword : IsOneWord (text.takeWhile (!isBlank ·)) :=
    ⟨h, fun c hc => by simpa using List.mem_takeWhile_imp hc⟩
  have hsplit := List.takeWhile_append_dropWhile (p := fun c => !isBlank c) (l := text)
  cases hrest : text.dropWhile (!isBlank ·) with
  | nil =>
    rw [hrest, List.append_nil] at hsplit
    rw [hsplit] at hword ⊢
    exact hword.words_eq
  | cons c rest =>
    have hc : isBlank c := by
      have hnot := List.head?_dropWhile_not (!isBlank ·) text
      rw [hrest] at hnot
      simpa using hnot
    have hrest' : words (c :: rest) = words rest := words_append_cons [] hc
    rw [hrest] at hsplit
    rw [← hsplit, words_append_cons _ hc, hword.words_eq, hrest', hsplit]
    rfl

theorem words_eq_nil_iff : words text = [] ↔ ∀ c ∈ text, isBlank c := by
  refine ⟨fun h => ?_, words_of_blank⟩
  induction text with
  | nil => exact List.forall_mem_nil _
  | cons c text ih =>
    by_cases hc : isBlank c
    · have hwords : words (c :: text) = words text := words_append_cons [] hc
      exact List.forall_mem_cons.mpr ⟨hc, ih (hwords.symm.trans h)⟩
    · rw [words_of_front (by simp [hc])] at h
      exact absurd h (List.cons_ne_nil _ _)

theorem words_flatMap {parts : List Text} (h : ∀ part ∈ parts, IsOneWord part) :
    words (parts.flatMap (· ++ [' '])) = parts := by
  induction parts with
  | nil => rfl
  | cons part parts ih =>
    obtain ⟨hpart, hparts⟩ := List.forall_mem_cons.mp h
    rw [List.flatMap_cons, List.append_assoc, List.singleton_append, hpart.words_append, ih hparts]

structure IsSingleSpaced (text : Text) : Prop where
  spaces : ∀ c ∈ text, isBlank c → c = ' '
  single : ¬ [' ', ' '] <:+: text
  front : text.head? ≠ some ' '
  back : text.getLast? ≠ some ' '

theorem IsSingleSpaced.behind (h : IsSingleSpaced (word ++ ' ' :: rest)) :
    rest ≠ [] ∧ IsSingleSpaced rest := by
  have hne : rest ≠ [] := by
    rintro rfl
    exact h.back (by simp)
  refine ⟨hne, fun c hc => h.spaces c ?_, fun hdouble => h.single ?_, fun hfront => h.single ?_,
    fun hback => h.back ?_⟩
  · exact List.mem_append_right word (.tail _ hc)
  · exact hdouble.trans ((List.suffix_cons ' ' rest).trans (List.suffix_append word _)).isInfix
  · obtain ⟨c, more, rfl⟩ := List.exists_cons_of_ne_nil hne
    obtain rfl := Option.some.inj hfront
    exact ⟨word, more, by simp⟩
  · rw [List.getLast?_append_of_ne_nil _ (List.cons_ne_nil _ _), List.getLast?_cons, hback]
    rfl

theorem joinWith_cons {first : Text} {others : List Text} (h : others ≠ []) :
    joinWith [' '] (first :: others) = first ++ ' ' :: joinWith [' '] others := by
  obtain ⟨second, others, rfl⟩ := List.exists_cons_of_ne_nil h
  simp [joinWith]

theorem collapse_of_isSingleSpaced (h : IsSingleSpaced text) : collapse text = text := by
  induction hn : text.length using Nat.strong_induction_on generalizing text with
  | _ n ih =>
    subst hn
    by_cases hempty : text = []
    · rw [hempty]
      rfl
    have hsplit := List.takeWhile_append_dropWhile (p := fun c => !isBlank c) (l := text)
    have hsolid : ∀ c ∈ text.takeWhile (!isBlank ·), isBlank c = false := by
      intro c hc
      simpa using List.mem_takeWhile_imp hc
    cases hrest : text.dropWhile (!isBlank ·) with
    | nil =>
      rw [hrest, List.append_nil] at hsplit
      have hword : IsOneWord text := ⟨hempty, hsplit ▸ hsolid⟩
      rw [collapse, hword.words_eq]
      simp [joinWith]
    | cons c rest =>
      rw [hrest] at hsplit
      have hc : isBlank c := by
        have hnot := List.head?_dropWhile_not (!isBlank ·) text
        rw [hrest] at hnot
        simpa using hnot
      obtain rfl := h.spaces c (hsplit ▸ List.mem_append_right _ List.mem_cons_self) hc
      generalize text.takeWhile (!isBlank ·) = word at hsplit hsolid
      obtain rfl := hsplit
      have hword : IsOneWord word := by
        refine ⟨?_, hsolid⟩
        rintro rfl
        exact h.front rfl
      obtain ⟨hne, hrest⟩ := h.behind
      have hcollapse := ih rest.length (by rw [List.length_append, List.length_cons]; omega)
        hrest rfl
      have hwords : words rest ≠ [] := by
        intro hnone
        rw [collapse, hnone] at hcollapse
        exact hne hcollapse.symm
      rw [collapse, hword.words_append, joinWith_cons hwords, ← collapse, hcollapse]

end Visualforce.Text
