import Mathlib.Data.List.DropRight
import Visualforce.Text.Blank

/-! # Trimming

A trimmed text begins and ends with a character that is not blank, and trimming it again changes
nothing.
-/
namespace Visualforce.Text

def IsTrimmed (text : Text) : Prop := trim text = text

instance (text : Text) : Decidable (IsTrimmed text) := inferInstanceAs (Decidable (_ = _))

theorem trimEnd_eq_rdropWhile (text : Text) : trimEnd text = text.rdropWhile isBlank := rfl

theorem trimStart_suffix (text : Text) : trimStart text <:+ text := List.dropWhile_suffix _

theorem trimEnd_isPrefix (text : Text) : trimEnd text <+: text := List.rdropWhile_prefix _ _

theorem mem_of_mem_trim {c : Char} {text : Text} (h : c ∈ trim text) : c ∈ text :=
  (trimStart_suffix text).subset ((trimEnd_isPrefix _).subset h)

theorem head?_trimStart {c : Char} (text : Text) (h : c ∈ (trimStart text).head?) :
    isBlank c = false := by
  have hnot := List.head?_dropWhile_not isBlank text
  have hc : (text.dropWhile isBlank).head? = some c := h
  rw [hc] at hnot
  exact hnot

theorem getLast?_trimEnd {c : Char} {text : Text} (h : c ∈ (trimEnd text).getLast?) :
    isBlank c = false := by
  rw [trimEnd, List.getLast?_reverse] at h
  have hnot := List.head?_dropWhile_not isBlank text.reverse
  have hc : (text.reverse.dropWhile isBlank).head? = some c := h
  rw [hc] at hnot
  exact hnot

theorem head?_trim {c : Char} {text : Text} (h : c ∈ (trim text).head?) : isBlank c = false := by
  refine head?_trimStart text ?_
  obtain ⟨rest, hrest⟩ := trimEnd_isPrefix (trimStart text)
  have hc : (trimEnd (trimStart text)).head? = some c := h
  rw [← hrest, List.head?_append, hc]
  rfl

theorem getLast?_trim {c : Char} {text : Text} (h : c ∈ (trim text).getLast?) :
    isBlank c = false := getLast?_trimEnd h

theorem trimStart_of_head? {text : Text} (h : ∀ c ∈ text.head?, isBlank c = false) :
    trimStart text = text := by
  cases text with
  | nil => rfl
  | cons c rest => exact List.dropWhile_cons_of_neg (by simp [h c rfl])

theorem trimEnd_of_getLast? {text : Text} (h : ∀ c ∈ text.getLast?, isBlank c = false) :
    trimEnd text = text := by
  have hrev : trimStart text.reverse = text.reverse :=
    trimStart_of_head? fun c hc => h c (List.head?_reverse ▸ hc)
  rw [trimEnd, ← trimStart, hrev, List.reverse_reverse]

theorem isTrimmed_of_ends {text : Text} (hfirst : ∀ c ∈ text.head?, isBlank c = false)
    (hlast : ∀ c ∈ text.getLast?, isBlank c = false) : IsTrimmed text := by
  rw [IsTrimmed, trim, trimStart_of_head? hfirst, trimEnd_of_getLast? hlast]

theorem isTrimmed_trim (text : Text) : IsTrimmed (trim text) :=
  isTrimmed_of_ends (fun _ => head?_trim) fun _ => getLast?_trim

@[simp] theorem trim_trim (text : Text) : trim (trim text) = trim text := isTrimmed_trim text

theorem isTrimmed_iff {text : Text} : IsTrimmed text ↔
    (∀ c ∈ text.head?, isBlank c = false) ∧ ∀ c ∈ text.getLast?, isBlank c = false := by
  refine ⟨fun h => ?_, fun h => isTrimmed_of_ends h.1 h.2⟩
  rw [← h]
  exact ⟨fun _ => head?_trim, fun _ => getLast?_trim⟩

theorem trim_eq_nil_iff {text : Text} : trim text = [] ↔ isBlankText text = true := by
  rw [trim, trimEnd_eq_rdropWhile, List.rdropWhile_eq_nil_iff, isBlankText, List.all_eq_true]
  constructor
  · intro h c hc
    by_contra hblank
    have hdrop : trimStart text = [] := by
      cases hstart : trimStart text with
      | nil => rfl
      | cons d rest =>
        have hd : isBlank d = false := head?_trimStart text (by rw [hstart]; rfl)
        have hd' := h d (hstart ▸ List.mem_cons_self ..)
        rw [hd] at hd'
        cases hd'
    exact hblank (List.dropWhile_eq_nil_iff.mp hdrop c hc)
  · exact fun h c hc => h c ((trimStart_suffix text).subset hc)

/-- Trimming takes a run of blanks off each end. -/
theorem exists_blanks (text : Text) : ∃ first last, text = first ++ (trim text ++ last) ∧
    (∀ c ∈ first, isBlank c = true) ∧ ∀ c ∈ last, isBlank c = true := by
  obtain ⟨last, hlast⟩ := trimEnd_isPrefix (trimStart text)
  refine ⟨text.takeWhile isBlank, last, ?_, fun c => List.mem_takeWhile_imp, ?_⟩
  · rw [trim, hlast]
    exact (List.takeWhile_append_dropWhile).symm
  · have hboth : (trimStart text).reverse.takeWhile isBlank ++ (trimEnd (trimStart text)).reverse =
        last.reverse ++ (trimEnd (trimStart text)).reverse := by
      rw [← List.reverse_append, hlast, trimEnd, List.reverse_reverse]
      exact List.takeWhile_append_dropWhile
    intro c hc
    exact List.mem_takeWhile_imp (List.append_cancel_right hboth ▸ List.mem_reverse.mpr hc)

theorem exists_leading_blanks (text : Text) : ∃ blanks solid, text = blanks ++ solid ∧
    (∀ c ∈ blanks, isBlank c) ∧ ∀ c ∈ solid.head?, isBlank c = false :=
  ⟨text.takeWhile isBlank, trimStart text, List.takeWhile_append_dropWhile.symm,
    fun _ => List.mem_takeWhile_imp, fun _ => head?_trimStart text⟩

/-- Only blanks follow the last character that is not blank. -/
theorem exists_trailing_blanks {text : Text} (h : ∃ c ∈ text, isBlank c = false) : ∃ body c blanks,
    text = body ++ c :: blanks ∧ isBlank c = false ∧ ∀ d ∈ blanks, isBlank d := by
  induction text with
  | nil => simp at h
  | cons c text ih =>
    by_cases htext : ∃ d ∈ text, isBlank d = false
    · obtain ⟨body, d, blanks, rfl, hd, hblanks⟩ := ih htext
      exact ⟨c :: body, d, blanks, rfl, hd, hblanks⟩
    · have hblanks : ∀ d ∈ text, isBlank d := by simpa using htext
      obtain ⟨d, hd, hsolid⟩ := h
      rcases List.mem_cons.mp hd with rfl | hd
      · exact ⟨[], d, text, rfl, hsolid, hblanks⟩
      · exact absurd ⟨d, hd, hsolid⟩ htext

theorem trim_padded {first core last : Text} (hfirst : ∀ c ∈ first, isBlank c)
    (hcore : IsTrimmed core)
    (hne : core ≠ []) (hlast : ∀ c ∈ last, isBlank c) : trim (first ++ (core ++ last)) = core := by
  obtain ⟨hhead, hend⟩ := isTrimmed_iff.mp hcore
  have hstart : trimStart (first ++ (core ++ last)) = core ++ last := by
    rw [trimStart, List.dropWhile_append_of_pos hfirst, ← trimStart, trimStart_of_head?]
    rw [List.head?_append_of_ne_nil core hne]
    exact hhead
  have hreverse : ((core ++ last).reverse.dropWhile isBlank) = core.reverse := by
    have hall : ∀ c ∈ last.reverse, isBlank c := fun c hc => hlast c (List.mem_reverse.mp hc)
    rw [List.reverse_append, List.dropWhile_append_of_pos hall, ← trimStart, trimStart_of_head?]
    rw [List.head?_reverse]
    exact hend
  rw [trim, hstart, trimEnd, hreverse, List.reverse_reverse]

end Visualforce.Text
