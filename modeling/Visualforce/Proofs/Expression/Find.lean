import Visualforce.Expression.Basic
import Visualforce.Proofs.Pattern.Scan
import Visualforce.Proofs.Text.Trim

/-! # Expressions in marked text

In a marked text every brace delimits an expression that is not blank. Its expressions are found one
after the other, so those of a text put together from marked pieces are those of the pieces.
-/
namespace Visualforce.Expression
open Pattern Cursor

/-- A text of accepted characters in which expressions stand between their delimiters. -/
inductive IsMarked (accepts : Char → Bool) : Text → Prop where
  | nil : IsMarked accepts []
  | char {c : Char} {rest : Text} (hc : accepts c) (hrest : IsMarked accepts rest) :
      IsMarked accepts (c :: rest)
  | field {content rest : Text} (hcontent : ∀ c ∈ content, accepts c)
      (hfilled : Text.isBlankText content = false) (hrest : IsMarked accepts rest) :
      IsMarked accepts ('{' :: '!' :: (content ++ '}' :: rest))

def isBraceless (c : Char) : Bool := c != '{' && c != '}'

namespace IsMarked

variable {accepts : Char → Bool} {first second text : Text}

theorem of_all (h : ∀ c ∈ text, accepts c) : IsMarked accepts text := by
  induction text with
  | nil => exact .nil
  | cons c text ih =>
    exact .char (h c List.mem_cons_self) (ih fun d hd => h d (List.mem_cons_of_mem c hd))

theorem append (hfirst : IsMarked accepts first) (hsecond : IsMarked accepts second) :
    IsMarked accepts (first ++ second) := by
  induction hfirst with
  | nil => exact hsecond
  | char hc _ ih => exact .char hc ih
  | field hcontent hfilled _ ih =>
    simp only [List.cons_append, List.append_assoc]
    exact .field hcontent hfilled ih

theorem mono {others : Char → Bool} (h : IsMarked accepts text)
    (himp : ∀ c, accepts c → others c) : IsMarked others text := by
  induction h with
  | nil => exact .nil
  | char hc _ ih => exact .char (himp _ hc) ih
  | field hcontent hfilled _ ih => exact .field (fun c hc => himp c (hcontent c hc)) hfilled ih

/-- What holds of accepted characters and of the delimiters holds of every character. -/
theorem forall_mem {property : Char → Prop} (h : IsMarked accepts text)
    (haccepts : ∀ c, accepts c → property c) (hopen : property '{') (hmark : property '!')
    (hclose : property '}') : ∀ c ∈ text, property c := by
  induction h with
  | nil => simp
  | char hc _ ih => exact List.forall_mem_cons.mpr ⟨haccepts _ hc, ih⟩
  | field hcontent _ _ ih =>
    refine List.forall_mem_cons.mpr ⟨hopen, List.forall_mem_cons.mpr ⟨hmark, ?_⟩⟩
    refine List.forall_mem_append.mpr ⟨fun c hc => haccepts c (hcontent c hc), ?_⟩
    exact List.forall_mem_cons.mpr ⟨hclose, ih⟩

theorem not_mem {c : Char} (h : IsMarked accepts text) (haccepts : accepts c = false)
    (hmarks : c ∉ ['{', '!', '}']) : c ∉ text := by
  have hne : ∀ d ∈ text, d ≠ c := by
    refine h.forall_mem (fun d hd heq => ?_) ?_ ?_ ?_
    · rw [heq, haccepts] at hd
      cases hd
    · exact fun heq => hmarks (heq ▸ by simp)
    · exact fun heq => hmarks (heq ▸ by simp)
    · exact fun heq => hmarks (heq ▸ by simp)
  exact fun hmem => hne c hmem rfl

theorem of_blanks_append {blanks : Text} (h : IsMarked accepts (blanks ++ text))
    (hblanks : ∀ c ∈ blanks, Text.isBlank c = true) : IsMarked accepts text := by
  induction blanks with
  | nil => exact h
  | cons c blanks ih =>
    obtain ⟨hc, hblanks⟩ := List.forall_mem_cons.mp hblanks
    generalize hwhole : c :: blanks ++ text = whole at h
    cases h with
    | nil => cases hwhole
    | char _ hrest =>
      obtain ⟨-, rfl⟩ := List.cons_eq_cons.mp hwhole
      exact ih hrest hblanks
    | field _ _ _ =>
      obtain ⟨rfl, -⟩ := List.cons_eq_cons.mp hwhole
      exact absurd hc (by decide)

theorem of_append_blanks {blanks : Text} (h : IsMarked accepts (text ++ blanks))
    (hblanks : ∀ c ∈ blanks, Text.isBlank c = true) : IsMarked accepts text := by
  generalize hwhole : text ++ blanks = whole at h
  induction h generalizing text with
  | nil =>
    obtain ⟨rfl, -⟩ := List.append_eq_nil_iff.mp hwhole
    exact .nil
  | char hc _ ih =>
    obtain ⟨rfl, -⟩ | ⟨text, rfl, hrest⟩ := List.append_eq_cons_iff.mp hwhole
    · exact .nil
    · exact .char hc (ih hrest.symm)
  | @field content rest hcontent hfilled _ ih =>
    have hparts : text ++ blanks = '{' :: '!' :: (content ++ ['}']) ++ rest := by
      rw [hwhole]; simp
    obtain ⟨tail, hopen, hblank⟩ | ⟨tail, htext, hrest⟩ := List.append_eq_append_iff.mp hparts
    · -- the closing brace is no blank, so nothing of the expression is cut off
      have htail : tail = [] := by
        by_contra hne
        have hlast : tail.getLast? = some '}' := by
          rw [← List.getLast?_append_of_ne_nil text hne, ← hopen]
          simp [List.getLast?_cons]
        have hmem : '}' ∈ blanks := by
          rw [hblank]
          exact List.mem_append_left _ (List.mem_of_getLast? hlast)
        exact absurd (hblanks _ hmem) (by decide)
      rw [htail, List.append_nil] at hopen
      rw [← hopen]
      exact .field hcontent hfilled .nil
    · rw [htext]
      simp only [List.cons_append, List.append_assoc, List.nil_append]
      exact .field hcontent hfilled (ih hrest.symm)

theorem trim (h : IsMarked accepts text) : IsMarked accepts (Text.trim text) := by
  obtain ⟨first, last, htext, hfirst, hlast⟩ := Text.exists_blanks text
  have hend : IsMarked accepts (Text.trim text ++ last) := of_blanks_append (htext ▸ h) hfirst
  exact hend.of_append_blanks hlast

end IsMarked

/-- Blanks and a closing brace do not match before a character that is neither. -/
theorem run_closing_of_filled {goOn : Place Unit → Option (Place Unit)}
    {groups : List (Unit × Span)}
    {before : Option Char} {filled rest : Text} (hbrace : '}' ∉ filled)
    (hfilled : ∃ c ∈ filled, Text.isBlank c = false) :
    (star blank ++ char '}').run ⟨between before (filled ++ rest), groups⟩ goOn = none := by
  have hrefuse : ∀ before c rest, Text.isBlank c →
      (char '}' : Pattern Unit).run ⟨between before (c :: rest), groups⟩ goOn = none := by
    intro before c rest hc
    refine run_one_of_head? ?_
    rintro d ⟨⟩
    exact beq_false_of_ne fun h => absurd (h ▸ hc) (by decide)
  rw [run_append, blank, run_starOne_takeWhile _ hrefuse]
  refine run_one_of_head? ?_
  intro c hc
  have hmem : c ∈ filled := by
    obtain ⟨d, hd, hnot⟩ := hfilled
    rw [List.dropWhile_append, if_neg] at hc
    · cases hdrop : filled.dropWhile Text.isBlank with
      | nil =>
        have hall := List.dropWhile_eq_nil_iff.mp hdrop d hd
        rw [hnot] at hall
        cases hall
      | cons e more =>
        rw [hdrop] at hc
        cases hc
        exact (List.dropWhile_suffix _).subset (hdrop ▸ List.mem_cons_self)
    · rw [List.isEmpty_iff]
      intro hnil
      have hall := List.dropWhile_eq_nil_iff.mp hnil d hd
      rw [hnot] at hall
      cases hall
  exact beq_false_of_ne fun h => hbrace (h ▸ hmem)

theorem run_closing {groups : List (Unit × Span)} {before : Option Char} {blanks rest : Text}
    (hblanks : ∀ c ∈ blanks, Text.isBlank c = true) :
    (star blank ++ char '}').run ⟨between before (blanks ++ '}' :: rest), groups⟩ some =
      some ⟨between (some '}') rest, groups⟩ := by
  rw [run_append, blank]
  refine run_starOne_of_some hblanks ?_ (by simp [char])
  rintro c ⟨⟩
  decide

/-- A match ends at the next closing brace, and its group holds what is trimmed of what lies
before. -/
theorem run_mergeField (before : Option Char) {content : Text} (rest : Text)
    (hbrace : '}' ∉ content) (hfilled : Text.isBlankText content = false) :
    ∃ span : Span, span.text = Text.trim content ∧
      mergeField.run ⟨between before ('{' :: '!' :: (content ++ '}' :: rest)), []⟩ some =
        some ⟨between (some '}') rest, [((), span)]⟩ := by
  obtain ⟨first, last, hcontent, hfirst, hlast⟩ := Text.exists_blanks content
  have htrim : Text.trim content ≠ [] := by
    intro h
    rw [Text.trim_eq_nil_iff.mp h] at hfilled
    cases hfilled
  have hends := Text.isTrimmed_iff.mp (Text.isTrimmed_trim content)
  have hcore : ∀ c ∈ Text.trim content, c ≠ '}' := by
    intro c hc h
    exact hbrace (h ▸ Text.mem_of_mem_trim hc)
  generalize Text.trim content = core at *
  subst hcontent
  obtain ⟨c, core, rfl⟩ := List.exists_cons_of_ne_nil htrim
  obtain ⟨hc, hcore⟩ := List.forall_mem_cons.mp hcore
  refine ⟨_, spanTo_text (behind (some '!') first) (behind (some c) core) (c :: core)
    (last ++ '}' :: rest), ?_⟩
  simp only [mergeField, run_append, List.append_assoc, List.cons_append]
  refine (run_exactly_append ['{', '!'] _).trans (run_starOne_of_some hfirst ?_ ?_)
  · rintro d ⟨⟩
    exact hends.1 c rfl
  · simp only [run_group, plusLazy, run_append, run_one_cons, bne_iff_ne, ne_eq, hc,
      not_false_eq_true, if_true]
    refine run_starLazyOne (fun d hd => bne_iff_ne.mpr (hcore d hd)) ?_ ?_
    · -- what is left of the content still ends in a character that is not blank
      rintro passed d more rfl
      have hlast : ∃ e ∈ d :: more, Text.isBlank e = false := by
        refine ⟨_, List.getLast_mem (List.cons_ne_nil d more), hends.2 _ ?_⟩
        rw [← List.cons_append, List.getLast?_append_of_ne_nil _ (List.cons_ne_nil d more)]
        exact List.getLast?_eq_some_getLast _
      refine run_closing_of_filled (fun hmem => hcore _ ?_ rfl) hlast
      exact List.mem_append_right _ hmem
    · exact run_closing hlast

theorem matchAt_mergeField (before : Option Char) {content : Text} (rest : Text)
    (hbrace : '}' ∉ content) (hfilled : Text.isBlankText content = false) :
    ∃ hit, mergeField.matchAt (between before ('{' :: '!' :: (content ++ '}' :: rest))) = some hit ∧
      hit.stop = between (some '}') rest ∧ hit.group () = Text.trim content := by
  obtain ⟨span, hspan, hrun⟩ := run_mergeField before rest hbrace hfilled
  refine ⟨_, by rw [matchAt, hrun]; rfl, rfl, ?_⟩
  exact hspan

theorem begins_mergeField : Begins mergeField (· == '{') :=
  ((((Begins.literal rfl).append _).append _).append _).append _

namespace IsMarked

variable {first second text : Text}

/-- Scanning a marked text finds expressions that are trimmed and not empty. -/
theorem scans (h : IsMarked isBraceless text) : ∃ found : List Text,
    (∀ content ∈ found, Text.IsTrimmed content ∧ content ≠ []) ∧
    ∀ before rest, Scans mergeField (seen (·.group ())) (between before (text ++ rest)) found
      (between (behind before text) rest) := by
  induction h with
  | nil => exact ⟨[], by simp, fun before rest => .done _⟩
  | @char c text hc _ ih =>
    obtain ⟨found, hfound, hscan⟩ := ih
    refine ⟨found, hfound, fun before rest => ?_⟩
    refine .skip rfl (begins_mergeField.matchAt ?_) (hscan (some c) rest)
    rintro d ⟨⟩
    exact beq_false_of_ne fun h => absurd (h ▸ hc) (by decide)
  | @field content text hcontent hfilled _ ih =>
    obtain ⟨found, hfound, hscan⟩ := ih
    have htrim : Text.trim content ≠ [] := by
      intro h
      rw [Text.trim_eq_nil_iff.mp h] at hfilled
      cases hfilled
    refine ⟨Text.trim content :: found, ?_, fun before rest => ?_⟩
    · exact List.forall_mem_cons.mpr ⟨⟨Text.isTrimmed_trim content, htrim⟩, hfound⟩
    · have hbrace : '}' ∉ content := fun hmem => absurd (hcontent _ hmem) (by decide)
      obtain ⟨hit, hmatch, hstop, hgroup⟩ :=
        matchAt_mergeField before (text ++ rest) hbrace hfilled
      have hlt : hit.stop.left <
          (between before ('{' :: '!' :: (content ++ '}' :: (text ++ rest)))).left := by
        rw [hstop]
        simp
        omega
      have htail := hscan (some '}') rest
      rw [← hstop] at htail
      have hscans := Scans.matched hmatch hlt htail
      simp only [seen, hgroup, List.singleton_append] at hscans
      simpa [behind_append] using hscans

end IsMarked

theorem find_eq_of_scans {text : Text} {found : List Text} {before : Option Char}
    (hscan : Scans mergeField (seen (·.group ())) (between none text) found (between before []))
    (hfound : ∀ content ∈ found, Text.IsTrimmed content ∧ content ≠ []) : find text = found := by
  have hall : mergeField.findAll () text = found := hscan.hits
  have hmap : found.map Text.trim = found := by
    rw [List.map_congr_left (g := id) fun content hc => (hfound content hc).1, List.map_id]
  rw [find, hall, hmap, List.filter_eq_self]
  intro content hc
  simpa using (hfound content hc).2

namespace IsMarked

variable {first second text : Text}

theorem find_append (hfirst : IsMarked isBraceless first) (hsecond : IsMarked isBraceless second) :
    find (first ++ second) = find first ++ find second := by
  obtain ⟨found, hfound, hscan⟩ := hfirst.scans
  obtain ⟨found', hfound', hscan'⟩ := hsecond.scans
  have hfirst' : find first = found :=
    find_eq_of_scans (by simpa using hscan none []) hfound
  have hsecond' : find second = found' :=
    find_eq_of_scans (by simpa using hscan' none []) hfound'
  have hboth := (hscan none second).append (by simpa using hscan' _ [])
  rw [hfirst', hsecond']
  exact find_eq_of_scans hboth (List.forall_mem_append.mpr ⟨hfound, hfound'⟩)

theorem find_flatMap {α : Type} {write : α → Text} {parts : List α}
    (h : ∀ part ∈ parts, IsMarked isBraceless (write part)) :
    IsMarked isBraceless (parts.flatMap write) ∧
      find (parts.flatMap write) = parts.flatMap fun part => find (write part) := by
  induction parts with
  | nil => exact ⟨.nil, rfl⟩
  | cons part parts ih =>
    obtain ⟨hpart, hparts⟩ := List.forall_mem_cons.mp h
    obtain ⟨hmarked, hfind⟩ := ih hparts
    rw [List.flatMap_cons, List.flatMap_cons]
    exact ⟨hpart.append hmarked, by rw [hpart.find_append hmarked, hfind]⟩

end IsMarked

theorem find_eq_nil {text : Text} (h : ∀ c ∈ text, isBraceless c) : find text = [] := by
  have hquiet : Quiet mergeField none text [] := begins_mergeField.quiet (fun c hc =>
    beq_false_of_ne fun hbrace => absurd (hbrace ▸ h c hc) (by decide)) none []
  rw [find, findAll, hits_of_quiet hquiet]
  rfl

theorem isBraceless_of_isBlank {c : Char} (h : Text.isBlank c) : isBraceless c := by
  rw [isBraceless, Bool.and_eq_true, bne_iff_ne, bne_iff_ne]
  exact ⟨fun hc => absurd (hc ▸ h) (by decide), fun hc => absurd (hc ▸ h) (by decide)⟩

/-- Trimming a marked text loses none of its expressions. -/
theorem IsMarked.find_trim {text : Text} (h : IsMarked isBraceless text) :
    IsMarked isBraceless (Text.trim text) ∧ find (Text.trim text) = find text := by
  obtain ⟨first, last, htext, hfirst, hlast⟩ := Text.exists_blanks text
  have hblank : ∀ {blanks : Text}, (∀ c ∈ blanks, Text.isBlank c = true) →
      IsMarked isBraceless blanks ∧ find blanks = [] := fun hall =>
    have hbraceless := fun c hc => isBraceless_of_isBlank (hall c hc)
    ⟨.of_all hbraceless, find_eq_nil hbraceless⟩
  have hend : IsMarked isBraceless (Text.trim text ++ last) := of_blanks_append (htext ▸ h) hfirst
  have hcore : IsMarked isBraceless (Text.trim text) := h.trim
  refine ⟨hcore, ?_⟩
  conv_rhs => rw [htext]
  rw [(hblank hfirst).1.find_append hend, hcore.find_append (hblank hlast).1,
    (hblank hfirst).2, (hblank hlast).2, List.append_nil, List.nil_append]

theorem first?_field {content : Text} (rest : Text) (hbrace : '}' ∉ content)
    (hfilled : Text.isBlankText content = false) :
    first? ('{' :: '!' :: (content ++ '}' :: rest)) = some (Text.trim content) := by
  obtain ⟨hit, hmatch, hstop, hgroup⟩ := matchAt_mergeField none rest hbrace hfilled
  have hlt : hit.stop.left < (between none ('{' :: '!' :: (content ++ '}' :: rest))).left := by
    rw [hstop]
    simp
    omega
  obtain ⟨more, hhits⟩ := hits_of_matchAt hmatch hlt
  have htrim : Text.trim (Text.trim content) = Text.trim content := Text.isTrimmed_trim content
  have hne : (Text.trim content).isEmpty = false := by
    rw [← Bool.not_eq_true, List.isEmpty_iff, Text.trim_eq_nil_iff, hfilled]
    exact Bool.false_ne_true
  rw [first?, find, findAll, hhits, List.map_cons, List.map_cons, hgroup, htrim,
    List.filter_cons_of_pos (by simp [hne])]
  rfl

/-- A marked text has no braces, or it goes up to its first expression without any. -/
theorem IsMarked.first_cases {text : Text} (h : IsMarked isBraceless text) :
    (∀ c ∈ text, isBraceless c) ∧ first? text = none ∨
      ∃ front content rest, text = front ++ '{' :: '!' :: (content ++ '}' :: rest) ∧
        (∀ c ∈ front, isBraceless c) ∧ '}' ∉ content ∧ Text.isBlankText content = false ∧
        first? text = some (Text.trim content) := by
  induction h with
  | nil => exact .inl ⟨by simp, rfl⟩
  | @char c text hc hrest ih =>
    have hfirst : first? (c :: text) = first? text := by
      have hone : IsMarked isBraceless [c] := .char hc .nil
      rw [first?, ← List.singleton_append, hone.find_append hrest, find_eq_nil (by simpa using hc)]
      rfl
    rcases ih with ⟨hall, hnone⟩ | ⟨front, content, rest, rfl, hfront, hbrace, hfilled, hsome⟩
    · exact .inl ⟨List.forall_mem_cons.mpr ⟨hc, hall⟩, hfirst.trans hnone⟩
    · exact .inr ⟨c :: front, content, rest, rfl, List.forall_mem_cons.mpr ⟨hc, hfront⟩, hbrace,
        hfilled, hfirst.trans hsome⟩
  | @field content rest hcontent hfilled _ _ =>
    have hbrace : '}' ∉ content := fun hmem => absurd (hcontent _ hmem) (by decide)
    exact .inr ⟨[], content, rest, rfl, by simp, hbrace, hfilled, first?_field rest hbrace hfilled⟩

end Visualforce.Expression
