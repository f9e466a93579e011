import Visualforce.Proofs.Markup.TagItem
import Visualforce.Proofs.Page.ResourceMentions

/-! # Include directives

A directive is a tag for a script or a stylesheet up to its first value, which stands between equal
quotes. It is read here from left to right without patterns, and the scan for directives finds the
same values.
-/
namespace Visualforce.Page
open Pattern Cursor Markup

variable {text value rest : Text} {before : Option Char} {groups : List (Unit × Span)}

def isQuote (c : Char) : Bool := c == '"' || c == '\''

theorem isQuote_iff {c : Char} : isQuote c ↔ c = '"' ∨ c = '\'' := by
  rw [isQuote, Bool.or_eq_true, beq_iff_eq, beq_iff_eq]

theorem isQuote_of_isBlank {c : Char} (h : Text.isBlank c) : isQuote c = false := by
  rw [← Bool.not_eq_true, isQuote_iff]
  rintro (rfl | rfl)
  · exact absurd h (by decide)
  · exact absurd h (by decide)

/-- The value between the quote that the text begins with and the next one of its kind, and what
follows. -/
def quotedAt? : Text → Option (Text × Text)
  | [] => none
  | quote :: text =>
    if isQuote quote then
      match text.dropWhile (· != quote) with
      | [] => none
      | _ :: rest => some (text.takeWhile (· != quote), rest)
    else none

/-- The quoted value behind the word for it and an equals sign, with blanks around the sign. -/
def assignedAt? (text : Text) : Option (Text × Text) := do
  let behind ← text.dropPrefix? "value".toList
  let behind ← (behind.dropWhile Text.isBlank).dropPrefix? ['=']
  quotedAt? (behind.dropWhile Text.isBlank)

/-- The first value that is assigned in the tag. Its word does not go on from a word before. -/
def valueIn? : Option Char → Text → Option (Text × Text)
  | _, [] => none
  | before, c :: rest =>
    (if before.any Text.isWord then none else assignedAt? (c :: rest)).or
      (if c = '>' then none else valueIn? (some c) rest)

/-- The value of the directive that the text begins with, and what follows it. -/
def directiveAt? (text : Text) : Option (Text × Text) := do
  let behind ← text.dropPrefix? "<apex:".toList
  let behind ← (behind.dropPrefix? "includeScript".toList).or
    (behind.dropPrefix? "stylesheet".toList)
  if behind.head?.any Text.isWord then none else valueIn? (some 't') behind

theorem exists_of_quotedAt? (h : quotedAt? text = some (value, rest)) : ∃ quote, isQuote quote ∧
    text = quote :: (value ++ quote :: rest) := by
  cases text with
  | nil => cases h
  | cons quote text =>
    rw [quotedAt?] at h
    split_ifs at h with hquote
    have hsplit := List.takeWhile_append_dropWhile (p := (· != quote)) (l := text)
    cases hdrop : text.dropWhile (· != quote) with
    | nil => simp [hdrop] at h
    | cons c behind =>
      have hc := Text.not_of_mem_head?_dropWhile (Option.mem_def.mpr (congrArg List.head? hdrop))
      simp only [hdrop, Option.some.injEq, Prod.mk.injEq] at h
      obtain ⟨rfl, rfl⟩ := h
      obtain rfl : c = quote := by simpa using hc
      rw [hdrop] at hsplit
      exact ⟨c, hquote, by rw [hsplit]⟩

theorem exists_of_assignedAt? (h : assignedAt? text = some (value, rest)) :
    ∃ front quote, isQuote quote ∧
    text = front ++ quote :: (value ++ quote :: rest) := by
  simp only [assignedAt?, Option.bind_eq_bind, Option.bind_eq_some_iff] at h
  obtain ⟨behind, hbehind, more, hmore, hquoted⟩ := h
  obtain ⟨quote, hquote, hsource⟩ := exists_of_quotedAt? hquoted
  obtain ⟨gap, hgap⟩ : ∃ gap, gap ++ behind.dropWhile Text.isBlank = behind :=
    ⟨_, List.takeWhile_append_dropWhile⟩
  obtain ⟨gap', hgap'⟩ : ∃ gap, gap ++ more.dropWhile Text.isBlank = more :=
    ⟨_, List.takeWhile_append_dropWhile⟩
  refine ⟨"value".toList ++ (gap ++ '=' :: gap'), quote, hquote, ?_⟩
  rw [Text.dropPrefix?_eq_some_iff.mp hbehind, ← hgap, Text.dropPrefix?_eq_some_iff.mp hmore,
    ← hgap', hsource]
  simp

theorem exists_of_valueIn? (h : valueIn? before text = some (value, rest)) :
    ∃ front quote, isQuote quote ∧
    text = front ++ quote :: (value ++ quote :: rest) := by
  induction text generalizing before with
  | nil => cases h
  | cons c text ih =>
    rw [valueIn?, Option.or_eq_some_iff] at h
    rcases h with h | ⟨-, h⟩
    · split_ifs at h
      exact exists_of_assignedAt? h
    · split_ifs at h
      obtain ⟨front, quote, hquote, rfl⟩ := ih h
      exact ⟨c :: front, quote, hquote, rfl⟩

theorem exists_of_directiveAt? (h : directiveAt? text = some (value, rest)) :
    ∃ front quote, isQuote quote ∧
    text = front ++ quote :: (value ++ quote :: rest) := by
  simp only [directiveAt?, Option.bind_eq_bind, Option.bind_eq_some_iff, Option.or_eq_some_iff] at h
  obtain ⟨behind, hbehind, more, hmore, hvalue⟩ := h
  split_ifs at hvalue
  obtain ⟨front, quote, hquote, rfl⟩ := exists_of_valueIn? hvalue
  obtain ⟨name, rfl⟩ : ∃ name, behind = name ++ (front ++ quote :: (value ++ quote :: rest)) := by
    rcases hmore with hmore | ⟨-, hmore⟩
    · exact ⟨_, Text.dropPrefix?_eq_some_iff.mp hmore⟩
    · exact ⟨_, Text.dropPrefix?_eq_some_iff.mp hmore⟩
  exact ⟨"<apex:".toList ++ (name ++ front), quote, hquote, by
    rw [Text.dropPrefix?_eq_some_iff.mp hbehind]; simp⟩

theorem length_lt_of_directiveAt? (h : directiveAt? text = some (value, rest)) :
    rest.length < text.length := by
  obtain ⟨front, quote, -, rfl⟩ := exists_of_directiveAt? h
  simp only [List.length_append, List.length_cons]
  omega

/-- The values of the directives in the text, from left to right. What a directive holds is not
searched again. -/
def directivesIn (text : Text) : List Text :=
  match h : directiveAt? text with
  | some (value, rest) =>
    have := length_lt_of_directiveAt? h
    value :: directivesIn rest
  | none =>
    match text with
    | [] => []
    | _ :: rest => directivesIn rest
termination_by text.length

theorem directivesIn_of_some (h : directiveAt? text = some (value, rest)) :
    directivesIn text = value :: directivesIn rest := by
  rw [directivesIn]
  split
  · rename_i hfound
    rw [h] at hfound
    obtain ⟨rfl, rfl⟩ := Prod.mk.inj (Option.some.inj hfound)
    rfl
  · rename_i hnone
    rw [h] at hnone
    cases hnone

theorem directivesIn_cons_of_none {c : Char} (h : directiveAt? (c :: rest) = none) :
    directivesIn (c :: rest) = directivesIn rest := by
  rw [directivesIn]
  split
  · rename_i hfound
    rw [h] at hfound
    cases hfound
  · rfl

@[simp] theorem directivesIn_nil : directivesIn [] = [] := by
  rw [directivesIn]
  rfl

/-- Each value of a directive stands in the text between equal quotes. -/
theorem exists_of_mem_directivesIn (h : value ∈ directivesIn text) :
    ∃ front quote rest, isQuote quote ∧
    text = front ++ quote :: (value ++ quote :: rest) := by
  induction hlength : text.length using Nat.strong_induction_on generalizing text with
  | _ n ih =>
    cases hat : directiveAt? text with
    | none =>
      cases text with
      | nil => simp at h
      | cons c text =>
        rw [directivesIn_cons_of_none hat] at h
        obtain ⟨front, quote, rest, hquote, rfl⟩ :=
          ih text.length (by rw [← hlength]; exact Nat.lt_succ_self _) h rfl
        exact ⟨c :: front, quote, rest, hquote, rfl⟩
    | some found =>
      obtain ⟨first, behind⟩ := found
      have hshorter : behind.length < n := hlength ▸ length_lt_of_directiveAt? hat
      obtain ⟨front, quote, hquote, rfl⟩ := exists_of_directiveAt? hat
      rw [directivesIn_of_some hat] at h
      rcases List.mem_cons.mp h with rfl | h
      · exact ⟨front, quote, behind, hquote, rfl⟩
      · obtain ⟨front', quote', rest, hquote', rfl⟩ := ih _ hshorter h rfl
        exact ⟨front ++ quote :: (first ++ quote :: front'), quote', rest, hquote', by simp⟩

/-- What is captured on the way to a place, and what is ahead of it. -/
def captured (last : Option (Place Unit)) : Option (Text × Text) :=
  last.map fun place => (((place.groups.lookup ()).map Span.text).getD [], place.cursor.rest)

theorem captured_or (first second : Option (Place Unit)) :
    captured (first.or second) = (captured first).or (captured second) :=
  Option.map_or

/-- A value between two quotes of one kind. -/
theorem captured_quoted {quote : Char} {accepts : Char → Bool}
    (haccepts : ∀ c, accepts c = (c != quote)) :
    captured ((char quote ++ group () (star (one accepts)) ++ char quote).run
      ⟨between before (quote :: text), groups⟩ some) =
      match text.dropWhile (· != quote) with
      | [] => none
      | _ :: rest => some (text.takeWhile (· != quote), rest) := by
  obtain rfl : accepts = (· != quote) := funext haccepts
  have hsplit := List.takeWhile_append_dropWhile (p := (· != quote)) (l := text)
  simp only [char, run_append, run_group, run_one_cons, beq_self_eq_true, if_true]
  rw [run_starOne_takeWhile]
  · cases hdrop : text.dropWhile (· != quote) with
    | nil => rfl
    | cons c rest =>
      have hc := Text.not_of_mem_head?_dropWhile (Option.mem_def.mpr (congrArg List.head? hdrop))
      obtain rfl : c = quote := by simpa using hc
      have hspan := spanTo_text (some c) (behind (some c) (text.takeWhile (· != c)))
        (text.takeWhile (· != c))
        (text.dropWhile (· != c))
      rw [hsplit, hdrop] at hspan
      simp only [run_one_cons, beq_self_eq_true, if_true]
      exact congrArg (fun value => some (value, rest)) hspan
  · intro before c rest hc
    have hne : (c == quote) = false := by simpa using hc
    rw [run_one_cons, hne, if_neg Bool.false_ne_true]

theorem captured_quotedValue : captured ((quotedValue ()).run ⟨between before text, groups⟩ some) =
    quotedAt? text := by
  rw [quotedValue, run_alt, captured_or]
  cases text with
  | nil => rfl
  | cons quote text =>
    have hother (mark : Char) {body last : Pattern Unit} (hne : quote ≠ mark) :
        captured ((char mark ++ body ++ last).run ⟨between before (quote :: text), groups⟩ some) =
          none := by
      rw [run_append, run_append, char, run_one_cons, beq_false_of_ne hne,
        if_neg Bool.false_ne_true]
      rfl
    have hdouble : ∀ c, (!"\"".toList.contains c) = (c != '"') :=
      fun c => by rw [Bool.eq_iff_iff]; simp
    have hsingle : ∀ c, (!"'".toList.contains c) = (c != '\'') :=
      fun c => by rw [Bool.eq_iff_iff]; simp
    rw [quotedAt?]
    split_ifs with hquote
    · rcases isQuote_iff.mp hquote with rfl | rfl
      · rw [hother '\'' (by decide), Option.or_none]
        exact captured_quoted hdouble
      · rw [hother '"' (by decide), Option.none_or]
        exact captured_quoted hsingle
    · rw [isQuote_iff, not_or] at hquote
      rw [hother _ hquote.1, hother _ hquote.2]
      rfl

/-- What is looked for in the tag of a directive. -/
def valuePattern : Pattern Unit := literal "value" ++ (equalsSign ++ quotedValue ())

theorem run_blanks {goOn : Place Unit → Option (Place Unit)}
    (hrefuse : ∀ before c rest, Text.isBlank c → goOn ⟨between before (c :: rest), groups⟩ = none) :
    (star blank).run ⟨between before text, groups⟩ goOn =
      goOn ⟨between (behind before (text.takeWhile Text.isBlank)) (text.dropWhile Text.isBlank),
        groups⟩ :=
  run_starOne_takeWhile text hrefuse

theorem run_quotedValue_none {c : Char} (hc : Text.isBlank c) :
    (quotedValue ()).run ⟨between before (c :: rest), groups⟩ some = none := by
  have hcaptured : captured ((quotedValue ()).run ⟨between before (c :: rest), groups⟩ some) =
    none := by
    rw [captured_quotedValue, quotedAt?, isQuote_of_isBlank hc, if_neg Bool.false_ne_true]
  exact Option.map_eq_none_iff.mp hcaptured

theorem captured_assigned :
    captured ((equalsSign ++ quotedValue ()).run ⟨between before text, groups⟩ some) =
    ((text.dropWhile Text.isBlank).dropPrefix? ['=']).bind fun behind =>
      quotedAt? (behind.dropWhile Text.isBlank) := by
  rw [run_append, equalsSign, run_append, run_append, run_blanks]
  · cases text.dropWhile Text.isBlank with
    | nil => rfl
    | cons c behind =>
      rw [char, run_one_cons]
      by_cases hc : c = '='
      · subst hc
        have hbehind : ('=' :: behind).dropPrefix? ['='] = some behind :=
          Text.dropPrefix?_append ['='] behind
        rw [beq_self_eq_true, if_pos rfl, run_blanks fun _ _ _ => run_quotedValue_none,
          captured_quotedValue, hbehind]
        rfl
      · rw [beq_false_of_ne hc, if_neg Bool.false_ne_true, Text.dropPrefix?_of_not_isPrefix fun h =>
          hc ?_]
        · rfl
        · exact (List.cons_prefix_cons.mp h).1.symm
  · intro before c rest hc
    have hne : c ≠ '=' := by
      rintro rfl
      exact absurd hc (by decide)
    rw [char, run_one_cons, beq_false_of_ne hne, if_neg Bool.false_ne_true]

theorem captured_value : captured (valuePattern.run ⟨between before text, groups⟩ some) =
    assignedAt? text := by
  rw [valuePattern, run_append, literal]
  by_cases hvalue : "value".toList <+: text
  · obtain ⟨behind, rfl⟩ := hvalue
    rw [run_exactly_append, assignedAt?, Text.dropPrefix?_append]
    exact captured_assigned
  · rw [run_exactly_of_not_isPrefix hvalue, assignedAt?, Text.dropPrefix?_of_not_isPrefix hvalue]
    rfl

theorem captured_edge :
    captured ((wordEdge ++ valuePattern).run ⟨between before text, groups⟩ some) =
    if before.any Text.isWord then none else assignedAt? text := by
  by_cases hvalue : "value".toList <+: text
  · obtain ⟨behind, rfl⟩ := hvalue
    have hword : ("value".toList ++ behind).head?.any Text.isWord := by
      have hv : Text.isWord 'v' := by decide
      exact hv
    rw [run_append, run_wordEdge_ahead hword]
    split_ifs
    · rfl
    · exact captured_value
  · have hnone : valuePattern.run ⟨between before text, groups⟩ some = none :=
      run_exactly_of_not_isPrefix hvalue
    rw [run_append, run_wordEdge, hnone, ite_self, assignedAt?,
      Text.dropPrefix?_of_not_isPrefix hvalue]
    exact (ite_self _).symm

theorem captured_within : captured ((starLazy (noneOf ">")).run ⟨between before text, groups⟩
    fun there => (wordEdge ++ valuePattern).run there some) = valueIn? before text := by
  induction text generalizing before with
  | nil =>
    have hnone : (wordEdge ++ valuePattern).run ⟨between before [], groups⟩ some = none := by
      rw [run_append, run_wordEdge]
      exact ite_self _
    exact congrArg captured (run_starLazy_stop hnone (run_one_nil _))
  | cons c text ih =>
    have hclose : (!">".toList.contains c) = !(c == '>') := by
      rw [Bool.eq_iff_iff]
      simp
    rw [noneOf, run_starLazyOne_cons, captured_or, captured_edge, valueIn?, hclose]
    refine congrArg _ ?_
    by_cases hc : c = '>'
    · rw [if_pos hc, hc]
      rfl
    · rw [if_neg hc, beq_false_of_ne hc]
      exact ih

/-- What follows the name of a directive. -/
def directiveTail : Pattern Unit :=
  wordEdge ++ (starLazy (noneOf ">") ++ (wordEdge ++ valuePattern))

theorem captured_tail {name : Text} (hlast : ∀ before, behind before name = some 't')
    (behind : Text) :
    captured ((exactly name ++ directiveTail).run ⟨between before (name ++ behind), groups⟩ some) =
      if behind.head?.any Text.isWord then none else valueIn? (some 't') behind := by
  have ht : (some 't').any Text.isWord := by decide
  rw [run_append, run_exactly_append, hlast, directiveTail, run_append, run_wordEdge_behind ht]
  split_ifs
  · rfl
  · exact captured_within

theorem captured_directive : captured (includeDirective.run ⟨between before text, []⟩ some) =
    directiveAt? text := by
  have hrun : includeDirective.run ⟨between before text, []⟩ some =
      (exactly "<apex:".toList).run ⟨between before text, []⟩ fun there =>
        ((exactly "includeScript".toList ++ directiveTail).run there some).or
          ((exactly "stylesheet".toList ++ directiveTail).run there some) := by
    simp only [includeDirective, run_append, run_alt]
    rfl
  have hnone {name behind : Text} (h : ¬ name <+: behind) (before : Option Char) :
      (exactly name ++ directiveTail).run ⟨between before behind, []⟩ some = none :=
        run_exactly_of_not_isPrefix h
  rw [hrun, directiveAt?]
  by_cases hopen : "<apex:".toList <+: text
  · obtain ⟨behind, rfl⟩ := hopen
    rw [run_exactly_append, Text.dropPrefix?_append, captured_or, Option.bind_eq_bind,
      Option.bind_some]
    by_cases hscript : "includeScript".toList <+: behind
    · obtain ⟨more, rfl⟩ := hscript
      have hstyle : ¬ "stylesheet".toList <+: "includeScript".toList ++ more :=
        fun h => absurd (List.cons_prefix_cons.mp h).1 (by decide)
      rw [captured_tail fun _ => rfl, hnone hstyle, Text.dropPrefix?_append, Option.some_or]
      exact Option.or_none
    · rw [hnone hscript, Text.dropPrefix?_of_not_isPrefix hscript, Option.none_or]
      by_cases hstyle : "stylesheet".toList <+: behind
      · obtain ⟨more, rfl⟩ := hstyle
        rw [captured_tail fun _ => rfl, Text.dropPrefix?_append]
        rfl
      · rw [hnone hstyle, Text.dropPrefix?_of_not_isPrefix hstyle]
        rfl
  · rw [run_exactly_of_not_isPrefix hopen, Text.dropPrefix?_of_not_isPrefix hopen]
    rfl

theorem matchAt_directive :
    (includeDirective.matchAt (between before text)).map
      (fun hit => (hit.group (), hit.stop.rest)) = directiveAt? text := by
  calc
    (includeDirective.matchAt (between before text)).map (fun hit => (hit.group (), hit.stop.rest))
      = captured (includeDirective.run ⟨between before text, []⟩ some) := by
        rw [matchAt, Option.map_map]; rfl
    _ = directiveAt? text := captured_directive

theorem scans_directives (before : Option Char) (text : Text) : ∃ after,
    Scans includeDirective (seen (·.group ())) (between before text) (directivesIn text)
    (between after []) := by
  induction hlength : text.length using Nat.strong_induction_on generalizing before text with
  | _ n ih =>
    have hmatch : (includeDirective.matchAt (between before text)).map
        (fun hit => (hit.group (), hit.stop.rest)) = directiveAt? text :=
      matchAt_directive
    cases hat : directiveAt? text with
    | none =>
      rw [hat, Option.map_eq_none_iff] at hmatch
      cases text with
      | nil =>
        rw [directivesIn_nil]
        exact ⟨before, .done _⟩
      | cons c rest =>
        obtain ⟨after, hscan⟩ := ih rest.length (by rw [← hlength]; exact Nat.lt_succ_self _)
          (some c) rest rfl
        rw [directivesIn_cons_of_none hat]
        exact ⟨after, .skip rfl hmatch hscan⟩
    | some found =>
      obtain ⟨value, rest⟩ := found
      rw [hat, Option.map_eq_some_iff] at hmatch
      obtain ⟨hit, hmatch, hfound⟩ := hmatch
      obtain ⟨rfl, rfl⟩ := Prod.mk.inj hfound
      have hlt := length_lt_of_directiveAt? hat
      obtain ⟨after, hscan⟩ := ih _ (hlength ▸ hlt) hit.stop.before hit.stop.rest rfl
      rw [← eq_between] at hscan
      have hless : hit.stop.left < (between before text).left := by rwa [hit.stop.left_eq]
      rw [directivesIn_of_some hat]
      exact ⟨after, (Scans.single (·.group ()) hmatch hless).append hscan⟩

theorem findAll_directives (text : Text) : includeDirective.findAll () text =
    directivesIn text := by
  obtain ⟨after, hscan⟩ := scans_directives none text
  exact hscan.hits

end Visualforce.Page
