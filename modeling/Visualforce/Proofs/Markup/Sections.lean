import Visualforce.Proofs.Markup.Visible
import Visualforce.Markup.Normal

/-! # Sections

A section holds a text as it stands. What would end it has to be divided between two sections, so a
body that is wrapped is a row of sections, and together they hold the body. Whatever is changed
outside of sections leaves them alone.
-/
namespace Visualforce.Markup
open Pattern Cursor

variable {before : Option Char} {text content rest : Text} {contents : List Text}

/-- A text that does not end the section that holds it. -/
def IsWhole (content : Text) : Prop := ¬ sectionClosing <:+: content

def sectionSource (content : Text) : Text := sectionOpening ++ (content ++ sectionClosing)

def sectionsSource (contents : List Text) : Text := contents.flatMap sectionSource

/-- Puts a character before the first text. -/
def consFirst (c : Char) : List Text → List Text
  | [] => [[c]]
  | first :: others => (c :: first) :: others

/-- The contents of the sections into which a body is divided. -/
def dividedBody : Text → List Text
  | ']' :: ']' :: '>' :: rest => [']', ']'] :: consFirst '>' (dividedBody rest)
  | c :: rest => consFirst c (dividedBody rest)
  | [] => [[]]

theorem flatten_consFirst (c : Char) (contents : List Text) :
    (consFirst c contents).flatten = c :: contents.flatten := by
  cases contents <;> simp [consFirst]

/-- Nothing of a body is lost. -/
theorem flatten_dividedBody (body : Text) : (dividedBody body).flatten = body := by
  induction body using dividedBody.induct with
  | case1 rest ih => simp [dividedBody, flatten_consFirst, ih]
  | case2 c rest hclosing ih =>
    rw [dividedBody]
    · rw [flatten_consFirst, ih]
    · exact hclosing
  | case3 => rfl

theorem isWhole_cons {c : Char} (hfront : ¬ sectionClosing <+: c :: content) (h : IsWhole content) :
    IsWhole (c :: content) :=
  fun hmem => (List.infix_cons_iff.mp hmem).elim hfront h

theorem closing_eq : sectionClosing = [']', ']', '>'] := by decide

/-- A body is divided into one section at least, the first of which holds what it begins with. -/
theorem exists_dividedBody (body : Text) :
    ∃ first others, dividedBody body = first :: others ∧ first <+: body ∧
      ∀ content ∈ first :: others, IsWhole content := by
  induction body using dividedBody.induct with
  | case1 rest ih =>
    obtain ⟨first, others, hdivided, -, hwhole⟩ := ih
    obtain ⟨hfirst, hothers⟩ := List.forall_mem_cons.mp hwhole
    have hmark : IsWhole [']', ']'] := by
      intro hmem
      have hle := hmem.length_le
      rw [closing_eq] at hle
      simp at hle
    have hnext : IsWhole ('>' :: first) := by
      refine isWhole_cons ?_ hfirst
      rw [closing_eq, List.cons_prefix_cons]
      rintro ⟨hc, -⟩
      cases hc
    refine ⟨[']', ']'], ('>' :: first) :: others, by
      rw [dividedBody, hdivided]; rfl, ⟨'>' :: rest, rfl⟩, ?_⟩
    exact List.forall_mem_cons.mpr ⟨hmark, List.forall_mem_cons.mpr ⟨hnext, hothers⟩⟩
  | case2 c rest hclosing ih =>
    obtain ⟨first, others, hdivided, hfront, hwhole⟩ := ih
    obtain ⟨hfirst, hothers⟩ := List.forall_mem_cons.mp hwhole
    refine ⟨c :: first, others, by rw [dividedBody, hdivided]; exacts [rfl, hclosing],
      List.cons_prefix_cons.mpr ⟨rfl, hfront⟩, List.forall_mem_cons.mpr ⟨isWhole_cons ?_ hfirst,
      hothers⟩⟩
    intro hmark
    rw [closing_eq] at hmark
    obtain ⟨more, hmore⟩ := hmark.trans (List.cons_prefix_cons.mpr ⟨rfl, hfront⟩)
    obtain ⟨rfl, rfl⟩ := List.cons_eq_cons.mp hmore
    exact hclosing more rfl rfl
  | case3 => exact ⟨[], [], rfl, List.prefix_refl _, by simp [IsWhole, closing_eq]⟩

/-- What is written for a mark that would end the section. -/
def dividedMark : Text := "]]]]>".toList ++ sectionOpening ++ ['>']

theorem sectionsSource_consFirst (c : Char) {others : List Text} {written : Text}
    (h : sectionOpening ++ (written ++ sectionClosing) = sectionsSource (content :: others)) :
    sectionOpening ++ (c :: written ++ sectionClosing) =
      sectionsSource (consFirst c (content :: others)) := by
  rw [sectionsSource, List.flatMap_cons, sectionSource, List.append_assoc] at h
  rw [consFirst, sectionsSource, List.flatMap_cons, sectionSource, List.append_assoc,
    List.cons_append, List.append_cancel_left h, List.cons_append]
  rfl

/-- Each mark in a body is written as the end of a section and the opening of the next one. -/
theorem scans_divided (body : Text) (before : Option Char) : ∃ written after,
    Scans (literal "]]>" : Pattern Unit) (Pattern.written fun _ => dividedMark)
    (between before body)
      written (between after []) ∧
        sectionOpening ++ (written ++ sectionClosing) = sectionsSource (dividedBody body) := by
  induction body using dividedBody.induct generalizing before with
  | case1 rest ih =>
    obtain ⟨written, after, hscan, heq⟩ := ih (some '>')
    obtain ⟨first, others, hdivided, -, -⟩ := exists_dividedBody rest
    have hmatch : (literal "]]>" : Pattern Unit).matchAt
      (between before (']' :: ']' :: '>' :: rest)) =
        some ⟨between before (']' :: ']' :: '>' :: rest), between (some '>') rest, []⟩ := by
      have hmark : ']' :: ']' :: '>' :: rest = "]]>".toList ++ rest := rfl
      rw [hmark, matchAt, literal, run_exactly_append]
      rfl
    have hlt : (between (some '>') rest).left <
      (between before (']' :: ']' :: '>' :: rest)).left := by
      simp only [between_left, List.length_cons]
      omega
    refine ⟨dividedMark ++ written, after, .matched hmatch hlt hscan, ?_⟩
    rw [hdivided] at heq
    have hnext := sectionsSource_consFirst '>' heq
    have hmark : dividedMark = [']', ']'] ++ (sectionClosing ++ (sectionOpening ++ ['>'])) := by
      decide
    rw [dividedBody, hdivided, sectionsSource, List.flatMap_cons, ← sectionsSource, ← hnext,
      sectionSource, hmark]
    simp
  | case2 c rest hclosing ih =>
    obtain ⟨written, after, hscan, heq⟩ := ih (some c)
    obtain ⟨first, others, hdivided, -, -⟩ := exists_dividedBody rest
    have hmatch : (literal "]]>" : Pattern Unit).matchAt (between before (c :: rest)) = none := by
      rw [matchAt, literal, run_exactly_of_not_isPrefix]
      · rfl
      · rintro ⟨more, hmore⟩
        obtain ⟨rfl, rfl⟩ := List.cons_eq_cons.mp hmore
        exact hclosing more rfl rfl
    rw [hdivided] at heq
    refine ⟨c :: written, after, .plain rfl hmatch hscan, ?_⟩
    rw [dividedBody, hdivided]
    · exact sectionsSource_consFirst c heq
    · exact hclosing
  | case3 => exact ⟨[], before, .done _, rfl⟩

theorem sectionsSource_dividedBody (body : Text) :
    sectionsSource (dividedBody body) = sectionOpening ++
      (splitClosings body ++ sectionClosing) := by
  obtain ⟨written, after, hscan, heq⟩ := scans_divided body none
  have hbody : splitClosings body = written := hscan.replace
  rw [hbody, heq]

/-- What ends a section does not begin inside it. -/
theorem IsWhole.not_isPrefix (h : IsWhole content) (hne : content ≠ []) (rest : Text) :
    ¬ sectionClosing <+: content ++ (sectionClosing ++ rest) := by
  rw [IsWhole, closing_eq] at h
  rw [closing_eq]
  exact Text.not_isPrefix_append_mark (by decide) h hne rest

theorem matchAt_section_of_not_isPrefix (before : Option Char) (text : Text)
    (h : ¬ sectionOpening <+: text) : sectionPattern.matchAt (between before text) = none := by
  have hopening : (literal "<![CDATA[" : Pattern Unit) = exactly sectionOpening := rfl
  rw [matchAt, sectionPattern, hopening, run_append, run_append, run_exactly_of_not_isPrefix h]
  rfl

theorem matchAt_section (h : IsWhole content) (before : Option Char) (rest : Text) : ∃ hit after,
    sectionPattern.matchAt (between before (sectionSource content ++ rest)) = some hit ∧
      hit.stop = between after rest ∧ hit.text = sectionSource content := by
  have hopening : (literal "<![CDATA[" : Pattern Unit) = exactly sectionOpening := rfl
  have hclosing : (literal "]]>" : Pattern Unit) = exactly sectionClosing := rfl
  have hsource : sectionSource content ++ rest = sectionOpening ++
    (content ++ (sectionClosing ++ rest)) := by
    simp [sectionSource]
  let start := between before (sectionSource content ++ rest)
  let after := behind (behind (behind before sectionOpening) content) sectionClosing
  have hrun : sectionPattern.run ⟨start, []⟩ some = some ⟨between after rest, []⟩ := by
    simp only [start]
    rw [hsource, sectionPattern, hopening, hclosing, run_append, run_append, run_exactly_append]
    refine run_starLazyOne (by simp) ?_ (run_exactly_append _ _)
    rintro first c second rfl
    refine run_exactly_of_not_isPrefix ?_
    have hwhole : IsWhole (c :: second) := fun hmem =>
      h (hmem.trans (List.suffix_append first (c :: second)).isInfix)
    exact hwhole.not_isPrefix (List.cons_ne_nil c second) rest
  refine ⟨⟨start, between after rest, []⟩, after, by rw [matchAt, hrun]; rfl, rfl, ?_⟩
  exact spanTo_text _ _ (sectionSource content) rest

theorem exists_scans_sections (h : ∀ content ∈ contents, IsWhole content) (before : Option Char)
    (rest : Text) : ∃ (hits : List (Hit Unit)) (after : Option Char),
      Scans sectionPattern (fun piece => [piece]) (between before (sectionsSource contents ++ rest))
        (hits.map Piece.matched) (between after rest) ∧
          hits.map Hit.text = contents.map sectionSource := by
  induction contents generalizing before with
  | nil => exact ⟨[], before, .done _, rfl⟩
  | cons content contents ih =>
    obtain ⟨hcontent, hcontents⟩ := List.forall_mem_cons.mp h
    obtain ⟨hit, middle, hmatch, hstop, htext⟩ :=
      matchAt_section hcontent before (sectionsSource contents ++ rest)
    obtain ⟨hits, after, hscan, htexts⟩ := ih hcontents middle
    have hsource : sectionsSource (content :: contents) ++ rest =
        sectionSource content ++ (sectionsSource contents ++ rest) := by
      simp [sectionsSource]
    have hlt : hit.stop.left <
        (between before (sectionSource content ++ (sectionsSource contents ++ rest))).left := by
      have hpos : 0 < (sectionSource content).length :=
        List.length_pos_iff.mpr (by simp [sectionSource, closing_eq])
      simp only [hstop, between_left, List.length_append]
      omega
    rw [← hstop] at hscan
    rw [hsource]
    exact ⟨hit :: hits, after, .matched hmatch hlt hscan, by rw [List.map_cons, htext, htexts]; rfl⟩

section
variable {change : Text → Text} {step : Piece Unit → Text × Text → Text × Text}

theorem foldr_plain (hplain : ∀ c gap done, step (.plain c) (gap, done) = (c :: gap, done))
    (text gap done : Text) :
    (text.map Piece.plain).foldr step (gap, done) = (text ++ gap, done) := by
  induction text with
  | nil => rfl
  | cons c text ih => rw [List.map_cons, List.foldr_cons, ih, hplain, List.cons_append]

theorem foldr_matched (hmatched : ∀ hit gap done,
      step (.matched hit) (gap, done) = ([], hit.text ++ change gap ++ done))
    (hempty : change [] = []) {hits : List (Hit Unit)} (hne : hits ≠ []) (gap done : Text) :
    (hits.map Piece.matched).foldr step (gap, done) =
      ([], (hits.map Hit.text).flatten ++ (change gap ++ done)) := by
  induction hits with
  | nil => exact absurd rfl hne
  | cons hit hits ih =>
    cases hits with
    | nil => simp [hmatched]
    | cons next hits =>
      rw [List.map_cons, List.foldr_cons, ih (List.cons_ne_nil _ _), hmatched, hempty]
      simp

end

/-- What a piece adds to the stretch and to the changed text behind it. -/
def betweenStep (change : Text → Text) (piece : Piece Unit) (behind : Text × Text) : Text × Text :=
  match piece with
  | .plain c => (c :: behind.1, behind.2)
  | .matched hit => ([], hit.text ++ change behind.1 ++ behind.2)

theorem changeBetween_eq (pattern : Pattern Unit) (change : Text → Text) (text : Text) :
    changeBetween pattern change text =
      change ((pattern.pieces text).foldr (betweenStep change) ([], [])).1 ++
        ((pattern.pieces text).foldr (betweenStep change) ([], [])).2 := by
  rw [changeBetween]
  rfl

/-- What is done between the sections of a row does not reach them. -/
theorem changeBetween_sections {change : Text → Text} {first last : Text}
    (hfirst : Quiet sectionPattern none first (sectionsSource contents ++ last))
    (h : ∀ content ∈ contents, IsWhole content) (hne : contents ≠ [])
    (hlast : ∀ before, Quiet sectionPattern before last []) (hempty : change [] = []) :
    changeBetween sectionPattern change (first ++ (sectionsSource contents ++ last)) =
      change first ++ (sectionsSource contents ++ change last) := by
  obtain ⟨hits, after, hscan, htexts⟩ := exists_scans_sections h (behind none first) last
  have hend := (hlast after).scans fun piece => [piece]
  rw [List.append_nil] at hend
  have hpieces := ((hfirst.scans fun piece => [piece]).append (hscan.append hend)).pieces
  rw [List.flatMap_singleton', ← List.map_eq_flatMap, ← List.map_eq_flatMap] at hpieces
  have hhits : hits ≠ [] := by
    rintro rfl
    exact hne (List.map_eq_nil_iff.mp htexts.symm)
  have hsource : (hits.map Hit.text).flatten = sectionsSource contents := by
    rw [htexts, sectionsSource, List.flatMap_def]
  rw [changeBetween, hpieces, List.foldr_append, List.foldr_append, foldr_plain fun _ _ _ => rfl,
    foldr_matched (fun _ _ _ => rfl) hempty hhits, foldr_plain fun _ _ _ => rfl, hsource]
  simp

end Visualforce.Markup
