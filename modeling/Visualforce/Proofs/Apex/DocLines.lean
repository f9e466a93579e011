import Visualforce.Apex.Doc
import Visualforce.Proofs.Pattern.Scan
import Visualforce.Proofs.Text.Trim
import Visualforce.Proofs.Text.Words

/-! # The lines of a documentation comment

A comment that is written with a star in front of each line is cleaned to the words of its lines. A
star is looked for where a line begins, and the blanks in front of it can be ends of lines before
it, as can the blank behind it. So what is taken at once is not always part of one line. But a
search that begins where a line does comes to the words of that line, or to where the next one
begins, and no star is looked for among the words of a line.
-/
namespace Visualforce.Apex
open Pattern Cursor

variable {before : Option Char} {text rest gap : Text}

/-- A line with some words, or with nothing but its star. -/
inductive DocLine where
  | bare
  | words (text : Text)

namespace DocLine

def source : DocLine → Text
  | bare => [' ', '*', '\n']
  | words text => ' ' :: '*' :: ' ' :: (text ++ ['\n'])

def words? : DocLine → Option Text
  | bare => none
  | words text => some text

/-- What a line is when it is rid of its star. -/
def shown : DocLine → Text
  | bare => []
  | words text => text ++ ['\n']

end DocLine

def docSource (lines : List DocLine) : Text :=
  "/**".toList ++ '\n' :: (lines.flatMap DocLine.source ++ ' ' :: "*/".toList)

/-- Words that may stand on a line: they hold no end of a line and no mark of a comment. -/
structure IsDocText (text : Text) : Prop where
  nonempty : text ≠ []
  trimmed : Text.IsTrimmed text
  unbroken : ∀ c ∈ text, Text.isLineBreak c = false
  opening : ¬ "/**".toList <:+: text
  closing : ¬ "*/".toList <:+: text

def DocLine.IsWellFormed : DocLine → Prop
  | bare => True
  | words text => IsDocText text

variable {line : DocLine} {lines : List DocLine}

theorem not_isInfix_line {piece : Text} (hspace : ' ' ∉ piece) (hend : '\n' ∉ piece)
    (hstar : ¬ piece <:+: ['*'])
    (hline : ∀ text, line = .words text → ¬ piece <:+: text) (hrest : ¬ piece <:+: rest) :
    ¬ piece <:+: line.source ++ rest := by
  have hnil : ¬ piece <:+: [] := fun h => hstar (h.trans List.nil_infix)
  cases line with
  | bare =>
    intro h
    have h : piece <:+: [] ++ ' ' :: (['*'] ++ '\n' :: rest) := h
    rcases Text.isInfix_append_cons hspace h with h | h
    · exact hnil h
    · exact (Text.isInfix_append_cons hend h).elim hstar hrest
  | words text =>
    intro h
    have h : piece <:+: [] ++ ' ' :: (['*'] ++ ' ' :: (text ++ '\n' :: rest)) := by
      simpa [DocLine.source] using h
    rcases Text.isInfix_append_cons hspace h with h | h
    · exact hnil h
    · rcases Text.isInfix_append_cons hspace h with h | h
      · exact hstar h
      · exact (Text.isInfix_append_cons hend h).elim (hline text rfl) hrest

theorem not_isInfix_lines {piece : Text} (hspace : ' ' ∉ piece) (hend : '\n' ∉ piece)
    (hstar : ¬ piece <:+: ['*'])
    (hlines : ∀ text, .words text ∈ lines → ¬ piece <:+: text) :
    ¬ piece <:+: lines.flatMap DocLine.source := by
  induction lines with
  | nil => exact fun h => hstar (h.trans List.nil_infix)
  | cons line lines ih =>
    refine not_isInfix_line hspace hend hstar
      (fun text htext => hlines text (htext ▸ List.mem_cons_self)) ?_
    exact ih fun text htext => hlines text (List.mem_cons_of_mem line htext)

/-- A mark of a comment that no words hold is not in the lines. -/
theorem quiet_mark {mark : String} (h : ∀ line ∈ lines, line.IsWellFormed)
    (hspace : ' ' ∉ mark.toList)
    (hend : '\n' ∉ mark.toList) (hstar : ¬ mark.toList <:+: ['*'])
    (hwords : ∀ text, IsDocText text → ¬ mark.toList <:+: text) :
    Quiet (literal mark : Pattern Unit) before ('\n' :: lines.flatMap DocLine.source)
      (' ' :: rest) := by
  refine quiet_literal (fun hmem => ?_) ?_
  · refine not_isInfix_lines hspace hend hstar (fun text htext => hwords text (h _ htext)) ?_
    have hline : mark.toList <:+: [] ∨ mark.toList <:+: lines.flatMap DocLine.source :=
      Text.isInfix_append_cons hend hmem
    exact hline.resolve_left fun hnil => hstar (hnil.trans List.nil_infix)
  · rintro c ⟨⟩ hc
    exact hspace (List.mem_of_mem_tail hc)

/-- Without its marks a comment is the end of its first line, its lines and the blank in front of
its end. -/
theorem replace_docMark (h : ∀ line ∈ lines, line.IsWellFormed) :
    docMark.replace (fun _ => []) (docSource lines) =
      '\n' :: (lines.flatMap DocLine.source ++ [' ']) := by
  let inside := '\n' :: (lines.flatMap DocLine.source ++ [' '])
  have hlines : Quiet docMark (some '*') ('\n' :: lines.flatMap DocLine.source)
    (' ' :: "*/".toList) :=
    .alt (quiet_mark h (by decide) (by decide) (by decide) fun _ => IsDocText.opening)
      (quiet_mark h (by decide) (by decide) (by decide) fun _ => IsDocText.closing)
  have hspace (before : Option Char) : Quiet docMark before [' '] "*/".toList := ⟨rfl, trivial⟩
  have hinside : Quiet docMark (some '*') inside "*/".toList := hlines.append (hspace _)
  have hsource : docSource lines = "/**".toList ++ (inside ++ "*/".toList) := by
    simp [docSource, inside]
  have hopening : docMark.matchAt (between none (docSource lines)) =
      some ⟨between none (docSource lines), between (some '*') (inside ++ "*/".toList), []⟩ := by
    rw [hsource]
    rfl
  have hclosing (before : Option Char) : docMark.matchAt (between before "*/".toList) =
      some ⟨between before "*/".toList, between (some '/') [], []⟩ := rfl
  have hfirst : Scans docMark (written fun _ => []) (between none (docSource lines)) []
      (between (some '*') (inside ++ "*/".toList)) :=
        .matched hopening (by simp [docSource, inside]) (.done _)
  have hscan := hfirst.append
    ((hinside.scans_written fun _ => []).append (.matched (hclosing _) (by simp) (.done _)))
  simpa [written, inside] using hscan.replace

/-- A line begins here. -/
def IsLineFront (before : Option Char) : Prop := before = none ∨ before = some '\n'

theorem run_lineStar (before : Option Char) (text : Text) :
    lineStar.run ⟨between before text, []⟩ some =
    if before.isNone || before == some '\n' then
      (star blank ++ (char '*' ++ maybe blank)).run ⟨between before text, []⟩ some else none := rfl

theorem matchAt_lineStar (hbefore : IsLineFront before) (hgap : ∀ c ∈ gap, Text.isBlank c)
    {c : Char} (hc : Text.isBlank c)
    (rest : Text) : ∃ hit, lineStar.matchAt (between before (gap ++ '*' :: c :: rest)) = some hit ∧
      hit.stop = between (some c) rest := by
  have hfront : (before.isNone || before == some '\n') = true := by
    rcases hbefore with rfl | rfl <;> rfl
  have hstar : ∀ d ∈ ('*' :: c :: rest).head?, Text.isBlank d = false := by
    rintro d ⟨⟩
    decide
  have hrun : lineStar.run ⟨between before (gap ++ '*' :: c :: rest), []⟩ some =
    some ⟨between (some c) rest, []⟩ := by
    rw [run_lineStar, if_pos hfront, run_append]
    refine run_starOne_of_some hgap hstar ?_
    rw [run_append, char, run_one_cons, if_pos (by decide), run_maybe, blank, run_one_cons,
      if_pos hc, Option.some_or]
  exact ⟨_, by rw [matchAt, hrun]; rfl, rfl⟩

theorem matchAt_lineStar_inside {c : Char} (hc : c ≠ '\n') (text : Text) :
    lineStar.matchAt (between (some c) text) = none := by
  have hinside : ((some c).isNone || some c == some '\n') = false := by simpa using hc
  rw [matchAt, run_lineStar, hinside]
  rfl

theorem matchAt_lineStar_blanks (h : ∀ c ∈ text, Text.isBlank c) :
    lineStar.matchAt (between before text) = none := by
  have hnone : (star blank ++ (char '*' ++ maybe blank) : Pattern Unit).run
    ⟨between before text, []⟩ some = none := by
    rw [run_append]
    refine run_starOne_none text fun passed rest htext _ => ?_
    rw [run_append]
    refine run_one_of_head? fun c hc => beq_false_of_ne ?_
    rintro rfl
    have hblank := h '*' (htext ▸ List.mem_append_right passed (List.mem_of_head? hc))
    cases hblank
  rw [matchAt, run_lineStar, hnone, ite_self]
  rfl

/-- Nothing is taken from the words of a line and from the end of the line. -/
theorem quiet_lineStar (h : '\n' ∉ text) {c : Char} (hc : c ≠ '\n') : Quiet lineStar (some c)
    (text ++ ['\n']) rest := by
  induction text generalizing c with
  | nil => exact ⟨matchAt_lineStar_inside hc _, trivial⟩
  | cons d text ih =>
    exact ⟨matchAt_lineStar_inside hc _, ih (List.not_mem_of_not_mem_cons h)
      (List.ne_of_not_mem_cons h).symm⟩

/-- From the front of a line its star is taken out, with the blanks in front of it, and the search
comes to the front of the next line. -/
theorem scans_line (h : line.IsWellFormed) (hbefore : IsLineFront before)
    (hgap : ∀ c ∈ gap, Text.isBlank c) (rest : Text) :
    Scans lineStar (written fun _ => []) (between before (gap ++ (line.source ++ rest))) line.shown
      (between (some '\n') rest) := by
  have hblanks : ∀ c ∈ gap ++ [' '], Text.isBlank c := List.forall_mem_append.mpr ⟨hgap, by decide⟩
  have hstar {c : Char} (hc : Text.isBlank c) (more : Text) : Scans lineStar (written fun _ => [])
      (between before (gap ++ [' '] ++ '*' :: c :: more)) [] (between (some c) more) := by
    obtain ⟨hit, hmatch, hstop⟩ := matchAt_lineStar hbefore hblanks hc more
    have hlt : hit.stop.left < (between before (gap ++ [' '] ++ '*' :: c :: more)).left := by
      simp only [hstop, between_left, List.length_append, List.length_cons]
      omega
    exact hstop ▸ .matched hmatch hlt (.done _)
  cases line with
  | bare =>
    have hsource : gap ++ (DocLine.bare.source ++ rest) = gap ++ [' '] ++ '*' :: '\n' :: rest := by
      simp [DocLine.source]
    rw [hsource]
    exact hstar (by decide) rest
  | words text =>
    have hsource : gap ++ ((DocLine.words text).source ++ rest) = gap ++ [' '] ++
      '*' :: ' ' :: (text ++ ['\n'] ++ rest) := by
      simp [DocLine.source]
    have hwords : '\n' ∉ text := by
      intro hmem
      have hbreak := h.unbroken '\n' hmem
      cases hbreak
    have hquiet : Quiet lineStar (some ' ') (text ++ ['\n']) rest :=
      quiet_lineStar hwords (by decide)
    have hscan := (hstar (by decide : Text.isBlank ' ') _).append (hquiet.scans_written fun _ => [])
    rw [behind_concat] at hscan
    rw [hsource]
    exact hscan

theorem scans_lines (h : ∀ line ∈ lines, line.IsWellFormed) (hbefore : IsLineFront before) :
    ∃ after, Scans lineStar (written fun _ => [])
      (between before (lines.flatMap DocLine.source ++ [' ']))
      (lines.flatMap DocLine.shown ++ [' ']) (between after []) := by
  induction lines generalizing before with
  | nil =>
    have hspace : Quiet lineStar before [' '] [] := ⟨matchAt_lineStar_blanks (by decide), trivial⟩
    exact ⟨_, hspace.scans_written fun _ => []⟩
  | cons line lines ih =>
    obtain ⟨hline, hlines⟩ := List.forall_mem_cons.mp h
    obtain ⟨after, hscan⟩ := ih hlines (.inr rfl)
    refine ⟨after, ?_⟩
    rw [List.flatMap_cons, List.flatMap_cons, List.append_assoc, List.append_assoc]
    exact (scans_line hline hbefore (List.forall_mem_nil _) _).append hscan

theorem replace_lineStar (h : ∀ line ∈ lines, line.IsWellFormed) : ∃ front, front ∈ [[], ['\n']] ∧
    lineStar.replace (fun _ => []) ('\n' :: (lines.flatMap DocLine.source ++ [' '])) =
      front ++ (lines.flatMap DocLine.shown ++ [' ']) := by
  cases lines with
  | nil =>
    have hquiet : Quiet lineStar none ['\n', ' '] [] :=
      ⟨matchAt_lineStar_blanks (by decide), matchAt_lineStar_blanks (by decide), trivial⟩
    exact ⟨['\n'], by decide, replace_of_quiet hquiet⟩
  | cons line lines =>
    obtain ⟨hline, hlines⟩ := List.forall_mem_cons.mp h
    obtain ⟨after, hscan⟩ := scans_lines hlines (.inr rfl : IsLineFront (some '\n'))
    have hfeed : ∀ c ∈ ['\n'], Text.isBlank c := by decide
    refine ⟨[], by decide, ?_⟩
    rw [List.flatMap_cons, List.flatMap_cons, List.append_assoc, List.append_assoc]
    exact ((scans_line hline (.inl rfl) hfeed _).append hscan).replace

theorem filledLines_append_cons {c : Char} (front : Text) (hc : Text.isLineBreak c) :
    Text.filledLines (front ++ c :: rest) = Text.filledLines front ++ Text.filledLines rest := by
  rw [Text.filledLines, Text.splitWhere_append_cons front hc, List.map_append, List.filter_append]
  rfl

theorem IsDocText.filledLines_eq (h : IsDocText text) : Text.filledLines text = [text] := by
  have hne : text.isEmpty = false := by simpa using h.nonempty
  rw [Text.filledLines, Text.splitWhere_of_unbroken h.unbroken, List.map_singleton, h.trimmed,
    List.filter_singleton, hne]
  rfl

theorem filledLines_shown (h : ∀ line ∈ lines, line.IsWellFormed) :
    Text.filledLines (lines.flatMap DocLine.shown ++ [' ']) = lines.filterMap DocLine.words? := by
  induction lines with
  | nil => decide
  | cons line lines ih =>
    obtain ⟨hline, hlines⟩ := List.forall_mem_cons.mp h
    rw [List.flatMap_cons, List.append_assoc]
    cases line with
    | bare => exact ih hlines
    | words text =>
      have hsource : (DocLine.words text).shown ++ (lines.flatMap DocLine.shown ++ [' ']) =
          text ++ '\n' :: (lines.flatMap DocLine.shown ++ [' ']) := by simp [DocLine.shown]
      rw [hsource, filledLines_append_cons text (by decide), IsDocText.filledLines_eq hline,
        ih hlines]
      rfl

/-- A comment with a star in front of each of its lines is cleaned to the words of the lines, with a
space between the words of two of them. -/
theorem cleanDoc_docSource (h : ∀ line ∈ lines, line.IsWellFormed) :
    cleanDoc (docSource lines) = Text.joinWith [' '] (lines.filterMap DocLine.words?) := by
  obtain ⟨front, hfront, hreplace⟩ := replace_lineStar h
  have hlines : Text.filledLines (front ++ (lines.flatMap DocLine.shown ++ [' '])) =
    lines.filterMap DocLine.words? := by
    simp only [List.mem_cons, List.not_mem_nil, or_false] at hfront
    rcases hfront with rfl | rfl
    · exact filledLines_shown h
    · exact (filledLines_append_cons [] (by decide)).trans (filledLines_shown h)
  rw [cleanDoc, replace_docMark h, hreplace, hlines]

/-- Words that begin with a star or end with one, and bare lines between them. -/
def noteLines : List DocLine :=
  [.words "* Total of *all*".toList, .bare, .bare, .words "/items/*".toList, .words "in  it".toList]

theorem cleanDoc_noteLines :
    (∀ line ∈ noteLines, line.IsWellFormed) ∧
      docSource noteLines = "/**\n * * Total of *all*\n".toList ++ " *\n *\n".toList ++
        " * /items/*\n".toList ++
        " * in  it\n */".toList ∧
      cleanDoc (docSource noteLines) = "* Total of *all* /items/* in  it".toList := by
  have hlines : ∀ line ∈ noteLines, line.IsWellFormed := by
    have hwords (text : Text)
      (h : text ∈ ["* Total of *all*".toList, "/items/*".toList, "in  it".toList]) :
      IsDocText text := by
      simp only [List.mem_cons, List.not_mem_nil, or_false] at h
      rcases h with rfl | rfl | rfl <;> constructor <;> decide
    simp only [noteLines, List.forall_mem_cons, DocLine.IsWellFormed]
    exact ⟨hwords _ (by decide), trivial, trivial, hwords _ (by decide), hwords _ (by decide),
      List.forall_mem_nil _⟩
  exact ⟨hlines, by decide +kernel, (cleanDoc_docSource hlines).trans (by decide +kernel)⟩

end Visualforce.Apex
