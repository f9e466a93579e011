import Visualforce.Proofs.Markup.Sections
import Visualforce.Proofs.Xml.ReadElement

/-! # Reading sections

What sections hold goes to the run that has been read, as it stands.
-/
namespace Visualforce.Xml
open Markup

variable {entities : Entities} {content rest : Text} {contents : List Text}
variable {outer : List Frame} {frame : Frame} {run : Text}

/-- A character that a section keeps. -/
def isSectionChar (c : Char) : Bool := isLegal c && c != '\r'

theorem sectionContent_append (hchars : ∀ c ∈ content, isSectionChar c) (h : IsWhole content)
    (run rest : Text) :
    sectionContent run (content ++ (sectionClosing ++ rest)) =
      .ok (content.reverse ++ run, rest) := by
  induction content generalizing run with
  | nil =>
    rw [closing_eq]
    rfl
  | cons c content ih =>
    obtain ⟨hc, hchars⟩ := List.forall_mem_cons.mp hchars
    rw [isSectionChar, Bool.and_eq_true, bne_iff_ne] at hc
    have hwhole : IsWhole content := fun hmem => h (hmem.trans (List.suffix_cons c content).isInfix)
    have hmark := h.not_isPrefix (List.cons_ne_nil c content) rest
    rw [closing_eq] at hmark ih ⊢
    rw [List.cons_append, sectionContent]
    · rw [if_pos hc.1, if_neg (by simpa using hc.2), ih hchars hwhole, List.reverse_cons,
        List.append_assoc]
      rfl
    · rintro more rfl hmore
      exact hmark ⟨more, congrArg (']' :: ·) hmore.symm⟩
    · rintro more rfl
      exact absurd rfl hc.2
    · simp
    · intro _ hshort
      have hlength := congrArg List.length hshort
      simp only [List.length_append, List.length_cons] at hlength
      omega

theorem sectionStart_append (opening rest : Text) :
    sectionStart opening ("CDATA[".toList ++ rest) = .ok rest := by
  have hlength : ((("CDATA[".toList ++ rest).take 6).foldl (fun n c => n + c.utf8Size) 0) = 6 := rfl
  rw [sectionStart, hlength, if_neg (by decide)]
  rfl

theorem content_section (hchars : ∀ c ∈ content, isSectionChar c) (h : IsWhole content) (n : Nat) :
    Xml.content entities (n + 1) outer frame run (sectionSource content ++ rest) =
      Xml.content entities n outer frame (content.reverse ++ run) rest := by
  have hsource : sectionSource content ++ rest =
      '<' :: '!' :: '[' :: ("CDATA[".toList ++ (content ++ (sectionClosing ++ rest))) := by
    have hopening : sectionOpening = '<' :: '!' :: '[' :: "CDATA[".toList := by decide
    simp [sectionSource, hopening]
  rw [hsource, Xml.content, sectionStart_append, ok_bind, sectionContent_append hchars h, ok_bind]

/-- A row of sections is read as the text that they hold together. -/
theorem content_sections (hchars : ∀ c ∈ contents.flatten, isSectionChar c)
    (h : ∀ content ∈ contents, IsWhole content) (n : Nat) :
    Xml.content entities (contents.length + n) outer frame run (sectionsSource contents ++ rest) =
      Xml.content entities n outer frame (contents.flatten.reverse ++ run) rest := by
  induction contents generalizing run with
  | nil => simp [sectionsSource]
  | cons content contents ih =>
    obtain ⟨hcontent, hcontents⟩ := List.forall_mem_cons.mp h
    rw [List.flatten_cons, List.forall_mem_append] at hchars
    have hsource : sectionsSource (content :: contents) ++ rest =
        sectionSource content ++ (sectionsSource contents ++ rest) := by
      simp [sectionsSource]
    rw [hsource, List.length_cons, Nat.add_right_comm, content_section hchars.1 hcontent,
      ih hchars.2 hcontents]
    simp

end Visualforce.Xml
