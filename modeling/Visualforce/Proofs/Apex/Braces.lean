import Visualforce.Proofs.Apex.Nesting

/-! # Matched code

Code is matched when its braces come in pairs and its literals and comments are closed. Counting
braces passes over matched code as over nothing, so the brace in front of it is closed by the brace
behind it, whatever braces and quotes stand in literals and comments. From any place counting ends
at a closing brace or at the end of the text.
-/
namespace Visualforce.Apex

variable {text inside body rest : Text} {depth : Int} {place : Nat}

/-- What stands between the quotes of a literal. A backslash takes the next character with it. -/
inductive IsLiteralBody : Text → Prop where
  | nil : IsLiteralBody []
  | char {c : Char} {body : Text} (hc : c ∉ "'\\".toList) (h : IsLiteralBody body) :
      IsLiteralBody (c :: body)
  | escaped {body : Text} (c : Char) (h : IsLiteralBody body) : IsLiteralBody ('\\' :: c :: body)

/-- Characters that mean nothing, literals, comments and matched code between braces. A slash may
stand where it opens no comment. -/
inductive IsMatched : Text → Prop where
  | nil : IsMatched []
  | char {c : Char} {text : Text} (hc : c ∉ "'/\x7b\x7d".toList) (h : IsMatched text) :
      IsMatched (c :: text)
  | slash {text : Text} (hnext : ∀ c ∈ text.head?, c ∉ "/*".toList) (h : IsMatched text) :
      IsMatched ('/' :: text)
  | literal {body text : Text} (hbody : IsLiteralBody body) (h : IsMatched text) :
      IsMatched ('\'' :: (body ++ '\'' :: text))
  | lineComment {body text : Text} (hbody : '\n' ∉ body) (h : IsMatched text) :
      IsMatched (lineComment body ++ text)
  | blockComment {body text : Text} (hbody : ¬ ['*', '/'] <:+: body) (h : IsMatched text) :
      IsMatched (blockComment body ++ text)
  | braces {inside text : Text} (hinside : IsMatched inside) (h : IsMatched text) :
      IsMatched ('\x7b' :: (inside ++ '\x7d' :: text))

theorem IsMatched.chars {passed : Text} (hpassed : ∀ c ∈ passed, c ∉ "'/\x7b\x7d".toList)
    (h : IsMatched text) :
    IsMatched (passed ++ text) := by
  induction passed with
  | nil => exact h
  | cons c passed ih =>
    obtain ⟨hc, hpassed⟩ := List.forall_mem_cons.mp hpassed
    exact .char hc (ih hpassed)

theorem closingFrom_literal (h : IsLiteralBody body) (depth : Int) (place : Nat) (rest : Text) :
    closingFrom .literal depth place (body ++ '\'' :: rest) =
      closingFrom .code depth (place + body.length + 1) rest := by
  induction h generalizing place with
  | nil => simp [closingFrom]
  | @char c body hc h ih =>
    obtain ⟨hquote, hescape⟩ : c ≠ '\'' ∧ c ≠ '\\' := by simpa using hc
    have hstep : closingFrom .literal depth place (c :: (body ++ '\'' :: rest)) =
        closingFrom .literal depth (place + 1) (body ++ '\'' :: rest) := by
      simp [closingFrom, hquote, hescape]
    rw [List.cons_append, hstep, ih, List.length_cons]
    congr 1
    omega
  | @escaped body c h ih =>
    have hstep : closingFrom .literal depth place ('\\' :: c :: (body ++ '\'' :: rest)) =
        closingFrom .literal depth (place + 2) (body ++ '\'' :: rest) := by
      simp [closingFrom]
    rw [List.cons_append, List.cons_append, hstep, ih, List.length_cons, List.length_cons]
    congr 1
    omega

theorem closingFrom_slash (hnext : ∀ c ∈ text.head?, c ∉ "/*".toList) :
    closingFrom .code depth place ('/' :: text) = closingFrom .code depth (place + 1) text := by
  cases text with
  | nil => simp [closingFrom]
  | cons c text =>
    obtain ⟨hslash, hstar⟩ : c ≠ '/' ∧ c ≠ '*' := by simpa using hnext c rfl
    simp [closingFrom, hslash, hstar]

/-- Matched code makes no difference, unless it ends with a slash and a comment opens there. -/
theorem closingFrom_of_isMatched (h : IsMatched text) (hrest : ∀ c ∈ rest.head?, c ∉ "/*".toList)
    (hdepth : 1 ≤ depth)
    (place : Nat) :
    closingFrom .code depth place (text ++ rest) = closingFrom .code depth (place + text.length)
      rest := by
  induction h generalizing depth place rest with
  | nil => rfl
  | @char c text hc h ih =>
    have hstep := (IsBalanced.cons hc .nil) depth place (text ++ rest) hdepth
    rw [List.cons_append, ← List.singleton_append, hstep, ih hrest hdepth, Nat.add_assoc,
      Nat.add_comm [c].length]
    rfl
  | @slash text hnext h ih =>
    have hnext' : ∀ c ∈ (text ++ rest).head?, c ∉ "/*".toList := by
      cases text with
      | nil => exact hrest
      | cons d text => exact hnext
    rw [List.cons_append, closingFrom_slash hnext', ih hrest hdepth, List.length_cons]
    congr 1
    omega
  | @literal body text hbody h ih =>
    have hopen : closingFrom .code depth place ('\'' :: (body ++ '\'' :: (text ++ rest))) =
        closingFrom .literal depth (place + 1) (body ++ '\'' :: (text ++ rest)) := by
      simp [closingFrom]
    rw [List.cons_append, List.append_assoc, List.cons_append, hopen, closingFrom_literal hbody,
      ih hrest hdepth, List.length_cons, List.length_append, List.length_cons]
    congr 1
    omega
  | @lineComment body text hbody h ih =>
    rw [List.append_assoc, isBalanced_lineComment hbody depth place _ hdepth, ih hrest hdepth,
      List.length_append, Nat.add_assoc]
  | @blockComment body text hbody h ih =>
    rw [List.append_assoc, isBalanced_blockComment hbody depth place _ hdepth, ih hrest hdepth,
      List.length_append, Nat.add_assoc]
  | @braces inside text hinside h ihinside ih =>
    have hopen : closingFrom .code depth place ('\x7b' :: (inside ++ '\x7d' :: (text ++ rest))) =
        closingFrom .code (depth + 1) (place + 1) (inside ++ '\x7d' :: (text ++ rest)) := by
      simp [closingFrom]
    have hclose : ∀ place, closingFrom .code (depth + 1) place ('\x7d' :: (text ++ rest)) =
        closingFrom .code depth (place + 1) (text ++ rest) := by
      intro place
      simp [closingFrom]
      omega
    have hbrace : ∀ c ∈ ('\x7d' :: (text ++ rest)).head?, c ∉ "/*".toList := by
      rintro c ⟨⟩
      decide
    rw [List.cons_append, List.append_assoc, List.cons_append, hopen, ihinside hbrace (by omega),
      hclose, ih hrest hdepth, List.length_cons, List.length_append, List.length_cons]
    congr 1
    omega

theorem closingFrom_code {c : Char} (h : c = '/' → ∀ d ∈ text.head?, d ∉ "/*".toList) :
    closingFrom .code depth place (c :: text) =
      if c == '\'' then closingFrom .literal depth (place + 1) text
      else if c == '\x7b' then closingFrom .code (depth + 1) (place + 1) text
      else if c == '\x7d' then
        if depth == 1 then some place else closingFrom .code (depth - 1) (place + 1) text
      else closingFrom .code depth (place + 1) text := by
  by_cases hslash : c = '/'
  · subst hslash
    rw [closingFrom_slash (h rfl)]
    rfl
  · rw [closingFrom]
    · exact fun _ heq _ => hslash heq
    · exact fun _ heq _ => hslash heq

/-- Counting from the front of the text ends at a closing brace, wherever the text stands and
whatever comes behind that brace. -/
def Closes (region : Region) (depth : Int) (text : Text) : Prop :=
  ∃ inside rest, text = inside ++ '\x7d' :: rest ∧
    ∀ place more, closingFrom region depth place (inside ++ '\x7d' :: more) =
      some (place + inside.length)

section Closing
variable {region region' : Region} {depth' : Int} {c : Char}

theorem Closes.behind (passed : Text) (h : Closes region' depth' text)
    (hstep : ∀ place (more : Text), more.head? = text.head? →
    closingFrom region depth place (passed ++ more) =
      closingFrom region' depth' (place + passed.length) more) :
        Closes region depth (passed ++ text) := by
  obtain ⟨inside, rest, rfl, hclosing⟩ := h
  refine ⟨passed ++ inside, rest, (List.append_assoc ..).symm, fun place more => ?_⟩
  have hhead : (inside ++ '\x7d' :: more).head? = (inside ++ '\x7d' :: rest).head? := by
    cases inside with
    | nil => rfl
    | cons d inside => rfl
  rw [List.append_assoc, hstep _ _ hhead, hclosing, List.length_append, Nat.add_assoc]

/-- One character of code is passed as it is counted. -/
theorem Closes.code (hnext : c = '/' → ∀ d ∈ text.head?, d ∉ "/*".toList)
    (h : Closes region' depth' text)
    (hstep : ∀ place more, (if c == '\'' then closingFrom .literal depth (place + 1) more
      else if c == '\x7b' then closingFrom .code (depth + 1) (place + 1) more
      else if c == '\x7d' then
        if depth == 1 then some place else closingFrom .code (depth - 1) (place + 1) more
      else closingFrom .code depth (place + 1) more) = closingFrom region' depth' (place + 1)
        more) :
    Closes .code depth (c :: text) := by
  refine h.behind [c] fun place more hhead => ?_
  rw [← hhead] at hnext
  exact (closingFrom_code hnext).trans (hstep place more)

theorem closes_of_closingFrom {place found : Nat}
    (h : closingFrom region depth place text = some found) :
    Closes region depth text := by
  have hnext {c : Char} {rest : Text} (hline : ∀ more, c = '/' → rest = '/' :: more → False)
      (hblock : ∀ more, c = '/' → rest = '*' :: more → False) : c = '/' →
        ∀ d ∈ rest.head?, d ∉ "/*".toList := by
    intro hc d hd hmem
    obtain ⟨more, rfl⟩ := List.head?_eq_some_iff.mp hd
    obtain rfl | rfl : d = '/' ∨ d = '*' := by simpa using hmem
    · exact hline more hc rfl
    · exact hblock more hc rfl
  fun_induction closingFrom region depth place text with
  | case1 => cases h
  | case2 depth place rest ih => exact (ih h).behind ['/', '/'] fun _ _ _ => rfl
  | case3 depth place rest ih => exact (ih h).behind ['/', '*'] fun _ _ _ => rfl
  | case4 depth place c rest hline hblock hquote ih =>
    exact (ih h).code (hnext hline hblock) fun place more => by rw [if_pos hquote]
  | case5 depth place c rest hline hblock hquote hopen ih =>
    exact (ih h).code (hnext hline hblock) fun place more => by rw [if_neg hquote, if_pos hopen]
  | case6 depth place c rest hline hblock hquote hopen hclose hdepth =>
    obtain rfl := beq_iff_eq.mp hclose
    obtain rfl := beq_iff_eq.mp hdepth
    exact ⟨[], rest, rfl, fun place more => rfl⟩
  | case7 depth place c rest hline hblock hquote hopen hclose hdepth ih =>
    exact (ih h).code (hnext hline hblock) fun place more => by
      rw [if_neg hquote, if_neg hopen, if_pos hclose, if_neg hdepth]
  | case8 depth place c rest hline hblock hquote hopen hclose ih =>
    exact (ih h).code (hnext hline hblock) fun place more => by
      rw [if_neg hquote, if_neg hopen, if_neg hclose]
  | case9 depth place c rest ih => exact (ih h).behind ['\\', c] fun _ _ _ => rfl
  | case10 depth place c rest hescape ih =>
    have hplain : c ≠ '\\' := by
      rintro rfl
      cases rest with
      | nil => cases h
      | cons d rest => exact hescape d rest rfl rfl
    refine (ih h).behind [c] fun place more _ => ?_
    rw [List.singleton_append, closingFrom]
    · rfl
    · exact fun _ _ hc _ => hplain hc
  | case11 depth place c rest ih =>
    refine (ih h).behind [c] fun place more _ => ?_
    rw [List.singleton_append, closingFrom]
    rfl
  | case12 depth place rest ih => exact (ih h).behind ['*', '/'] fun _ _ _ => rfl
  | case13 depth place c rest hend ih =>
    refine (ih h).behind [c] fun place more hhead => ?_
    rw [List.singleton_append, closingFrom]
    · rfl
    · rintro others hc rfl
      obtain ⟨left, rfl⟩ := List.head?_eq_some_iff.mp hhead.symm
      exact hend left hc rfl

end Closing

def IsClosingAt (text : Text) (place found : Nat) : Prop := place ≤ found ∧ text[found - place]? =
    some '\x7d'

theorem isClosingAt_of_closingFrom {region : Region} {found : Nat}
    (h : closingFrom region depth place text = some found) : IsClosingAt text place found := by
  obtain ⟨inside, rest, rfl, hclosing⟩ := closes_of_closingFrom h
  obtain rfl : place + inside.length = found := Option.some.inj ((hclosing place rest).symm.trans h)
  refine ⟨Nat.le_add_right .., ?_⟩
  rw [Nat.add_sub_cancel_left, List.getElem?_append_right (Nat.le_refl _), Nat.sub_self]
  rfl

theorem matchingBrace_isClosing (hplace : place ≤ text.length) :
    place ≤ matchingBrace text place ∧ matchingBrace text place ≤ text.length ∧
      (matchingBrace text place < text.length → text[matchingBrace text place]? = some '\x7d') := by
  rw [matchingBrace]
  cases hfound : closingFrom .code 0 place (text.drop place) with
  | none => exact ⟨hplace, Nat.le_refl _, fun h => absurd h (Nat.lt_irrefl _)⟩
  | some found =>
    obtain ⟨hle, hget⟩ := isClosingAt_of_closingFrom hfound
    rw [List.getElem?_drop, Nat.add_sub_cancel' hle] at hget
    exact ⟨hle, (List.getElem?_eq_some_iff.mp hget).1.le, fun _ => hget⟩

/-- A brace in front of matched code is closed by the one behind it, so braces, quotes and marks of
comments in literals and comments do not count. In every text, from every place of it, the place
that is found lies between that place and the end, and before the end it holds a closing brace. -/
theorem matchingBrace_closes :
    (∀ text rest, IsMatched text → matchingBrace ('\x7b' :: (text ++ '\x7d' :: rest)) 0 =
      text.length + 1) ∧
    ∀ text place, place ≤ text.length → place ≤ matchingBrace text place ∧
      matchingBrace text place ≤ text.length ∧
      (matchingBrace text place < text.length → text[matchingBrace text place]? = some '\x7d') := by
  refine ⟨fun text rest h => ?_, fun text place => matchingBrace_isClosing⟩
  have hbrace : ∀ c ∈ ('\x7d' :: rest).head?, c ∉ "/*".toList := by
    rintro c ⟨⟩
    decide
  have hopen : closingFrom .code 0 0 ('\x7b' :: (text ++ '\x7d' :: rest)) =
      closingFrom .code 1 1 (text ++ '\x7d' :: rest) := by
    simp [closingFrom]
  have hclose : closingFrom .code 1 (1 + text.length) ('\x7d' :: rest) =
    some (1 + text.length) := by
    simp [closingFrom]
  rw [matchingBrace, List.drop_zero, hopen, closingFrom_of_isMatched h hbrace (Int.le_refl 1),
    hclose, Option.getD_some, Nat.add_comm]

/-- A method body with braces in a literal and in both kinds of comments, and with a slash at its
end. -/
def guardedBody : Text :=
  "s = ".toList ++ '\'' :: ("\\'\x7d".toList ++ '\'' :: (lineComment " it's \x7b".toList ++
    (blockComment " \x7d ' ".toList ++
    '\x7b' :: ("a ".toList ++ '/' :: " b; ".toList ++ '\x7d' :: ['/']))))

theorem matchingBrace_guardedBody : IsMatched guardedBody ∧
    matchingBrace ('\x7b' :: (guardedBody ++ '\x7d' :: " \x7d".toList)) 0 = guardedBody.length + 1 ∧
    5 ≤ guardedBody.length ∧ matchingBrace guardedBody 5 ≤ guardedBody.length := by
  have hliteral : IsLiteralBody "\\'\x7d".toList := .escaped '\'' (.char (by decide) .nil)
  have hstatement : IsMatched (" b; ".toList ++ []) := .chars (by decide) .nil
  have hinside : IsMatched ("a ".toList ++ '/' :: " b; ".toList) :=
    .chars (by decide) (.slash (by rintro c ⟨⟩; decide) hstatement)
  have hmatched : IsMatched guardedBody :=
    .chars (by decide) (.literal hliteral (.lineComment (by decide) (.blockComment (by decide)
      (.braces hinside (.slash (by rintro c ⟨⟩) .nil)))))
  have hplace : 5 ≤ guardedBody.length := by decide
  exact ⟨hmatched, matchingBrace_closes.1 guardedBody _ hmatched, hplace,
    (matchingBrace_closes.2 guardedBody 5 hplace).2.1⟩

end Visualforce.Apex
