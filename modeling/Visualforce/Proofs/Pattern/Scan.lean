import Visualforce.Proofs.Pattern.Run
import Visualforce.Proofs.Text.Piece

/-! # Scanning piece by piece

A scan of a text is put together from scans of its pieces: from a place in the text to a later one,
with what the scan has collected in between. Each piece is scanned with the text that follows it
still ahead, so a match may look beyond the end of its piece without reaching over it.
-/
namespace Visualforce.Pattern
open Cursor

variable {κ α : Type} {pattern : Pattern κ} {collect : Piece κ → List α}
variable {here middle there : Cursor} {before : Option Char}

/-- From `here` on the scan collects the given values and then goes on at `there`. -/
inductive Scans (pattern : Pattern κ) (collect : Piece κ → List α) :
    Cursor → List α → Cursor → Prop where
  | done (here : Cursor) : Scans pattern collect here [] here
  | plain {here next there : Cursor} {c : Char} {values : List α}
      (hnext : here.next? = some (c, next)) (hmatch : pattern.matchAt here = none)
      (rest : Scans pattern collect next values there) :
      Scans pattern collect here (collect (.plain c) ++ values) there
  | matched {here there : Cursor} {hit : Hit κ} {values : List α}
      (hmatch : pattern.matchAt here = some hit) (hlt : hit.stop.left < here.left)
      (rest : Scans pattern collect hit.stop values there) :
      Scans pattern collect here (collect (.matched hit) ++ values) there

/-- Collects what a view shows of each match. -/
def seen (view : Hit κ → α) : Piece κ → List α
  | .plain _ => []
  | .matched hit => [view hit]

/-- Collects the text that a replacement writes. -/
def written (write : Hit κ → Text) : Piece κ → Text
  | .plain c => [c]
  | .matched hit => write hit

namespace Scans

theorem skip {view : Hit κ → α} {next : Cursor} {c : Char} {values : List α}
    (hnext : here.next? = some (c, next)) (hmatch : pattern.matchAt here = none)
    (rest : Scans pattern (seen view) next values there) :
    Scans pattern (seen view) here values there :=
  .plain hnext hmatch rest

theorem single (view : Hit κ → α) {hit : Hit κ} (hmatch : pattern.matchAt here = some hit)
    (hlt : hit.stop.left < here.left) : Scans pattern (seen view) here [view hit] hit.stop :=
  .matched hmatch hlt (.done _)

theorem append {first second : List α} (hfirst : Scans pattern collect here first middle)
    (hsecond : Scans pattern collect middle second there) :
    Scans pattern collect here (first ++ second) there := by
  induction hfirst with
  | done => exact hsecond
  | plain hnext hmatch _ ih => rw [List.append_assoc]; exact .plain hnext hmatch (ih hsecond)
  | matched hmatch hlt _ ih => rw [List.append_assoc]; exact .matched hmatch hlt (ih hsecond)

end Scans

theorem next?_eq_none_iff : here.next? = none ↔ here.left = 0 := by
  rw [eq_between here]
  cases here.rest with
  | nil => simp
  | cons c rest => simp

theorem piecesFrom_reverse (n : Nat) (here : Cursor) (found : List (Piece κ)) :
    pattern.piecesFrom n here found = found.reverse ++ pattern.piecesFrom n here [] := by
  induction n generalizing here found with
  | zero => simp [piecesFrom]
  | succ n ih =>
    rw [piecesFrom, piecesFrom]
    cases here.next? with
    | none => simp
    | some entry =>
      simp only
      cases pattern.matchAt here with
      | none => simp only; rw [ih, ih _ [_]]; simp
      | some hit =>
        simp only
        split_ifs
        · rw [ih, ih _ [_]]; simp
        · rw [ih, ih _ [_]]; simp

theorem Scans.exists_piecesFrom {values : List α} (h : Scans pattern collect here values there)
    {n : Nat}
    (hn : here.left ≤ n) : ∃ m, there.left ≤ m ∧ (pattern.piecesFrom n here []).flatMap collect =
      values ++ (pattern.piecesFrom m there []).flatMap collect := by
  induction h generalizing n with
  | done here => exact ⟨n, hn, rfl⟩
  | @plain here next there c values hnext hmatch _ ih =>
    have hlt := left_lt_of_next? hnext
    obtain ⟨n, rfl⟩ : ∃ m, n = m + 1 := ⟨n - 1, by omega⟩
    obtain ⟨m, hm, hpieces⟩ := ih (n := n) (by omega)
    refine ⟨m, hm, ?_⟩
    simp only [Pattern.piecesFrom, hnext, hmatch]
    rw [piecesFrom_reverse, List.flatMap_append, hpieces]
    simp
  | @matched here there hit values hmatch hlt _ ih =>
    obtain ⟨n, rfl⟩ : ∃ m, n = m + 1 := ⟨n - 1, by omega⟩
    obtain ⟨⟨c, next⟩, hnext⟩ : ∃ entry, here.next? = some entry := by
      apply Option.ne_none_iff_exists'.mp
      intro hnone
      have := next?_eq_none_iff.mp hnone
      omega
    obtain ⟨m, hm, hpieces⟩ := ih (n := n) (by omega)
    refine ⟨m, hm, ?_⟩
    simp only [Pattern.piecesFrom, hnext, hmatch, if_pos hlt]
    rw [piecesFrom_reverse, List.flatMap_append, hpieces]
    simp

/-- The pieces ahead of a place up to the end are what a scan collects from there. -/
theorem Scans.piecesFrom {values : List α} (h : Scans pattern collect here values there)
    (hend : there.left = 0) {n : Nat} (hn : here.left ≤ n) :
    (pattern.piecesFrom n here []).flatMap collect = values := by
  obtain ⟨m, -, hpieces⟩ := h.exists_piecesFrom hn
  have hnone : pattern.piecesFrom m there [] = [] := by
    cases m with
    | zero => rfl
    | succ m => simp [Pattern.piecesFrom, next?_eq_none_iff.mpr hend]
  rw [hpieces, hnone, List.flatMap_nil, List.append_nil]

/-- Where every match takes something, a scan goes on to the end of the text. -/
theorem exists_scans (hlt : ∀ ⦃here hit⦄, pattern.matchAt here = some hit → hit.stop.left <
    here.left)
    (collect : Piece κ → List α) (here : Cursor) :
    ∃ values before, Scans pattern collect here values (between before []) := by
  induction hleft : here.left using Nat.strong_induction_on generalizing here with
  | _ n ih =>
    cases hnext : here.next? with
    | none =>
      have hrest : here.rest = [] := by
        rw [← List.length_eq_zero_iff, ← here.left_eq]
        exact next?_eq_none_iff.mp hnext
      refine ⟨[], here.before, ?_⟩
      rw [← hrest, ← eq_between here]
      exact .done here
    | some entry =>
      cases hmatch : pattern.matchAt here with
      | none =>
        obtain ⟨values, before, hscan⟩ :=
          ih entry.2.left (hleft ▸ left_lt_of_next? hnext) entry.2 rfl
        exact ⟨_, before, .plain hnext hmatch hscan⟩
      | some hit =>
        obtain ⟨values, before, hscan⟩ := ih hit.stop.left (hleft ▸ hlt hmatch) hit.stop rfl
        exact ⟨_, before, .matched hmatch (hlt hmatch) hscan⟩

theorem Scans.pieces {text : Text} {values : List α}
    (h : Scans pattern collect (between none text) values (between before [])) :
    (pattern.pieces text).flatMap collect = values :=
  h.piecesFrom rfl (Nat.le_refl _)

theorem flatMap_seen (view : Hit κ → α) (found : List (Piece κ)) :
    found.flatMap (seen view) = (found.filterMap Piece.hit?).map view := by
  induction found with
  | nil => rfl
  | cons piece rest ih =>
    rw [List.flatMap_cons, ih]
    cases piece <;> rfl

theorem map_hits (view : Hit κ → α) (text : Text) :
    (pattern.hits text).map view = (pattern.pieces text).flatMap (seen view) :=
  (flatMap_seen view _).symm

theorem Scans.hits {view : Hit κ → α} {text : Text} {values : List α}
    (h : Scans pattern (seen view) (between none text) values (between before [])) :
    (pattern.hits text).map view = values := by
  rw [map_hits, h.pieces]

theorem replace_eq (write : Hit κ → Text) (text : Text) :
    pattern.replace write text = (pattern.pieces text).flatMap (written write) := by
  rw [replace]
  refine congrArg (List.flatMap · _) (funext fun piece => ?_)
  cases piece <;> rfl

theorem Scans.replace {write : Hit κ → Text} {text result : Text}
    (h : Scans pattern (written write) (between none text) result (between before [])) :
    pattern.replace write text = result := by
  rw [replace_eq, h.pieces]

theorem Scans.searchWithin {view : Hit κ → α} {values : List α}
    (h : Scans pattern (seen view) here values there) (hend : there.left = 0)
    (hlast : pattern.matchAt there = none) {n : Nat} (hn : here.left ≤ n) :
    (pattern.searchWithin n here).map view = values.head? := by
  induction h generalizing n with
  | done here =>
    have hnext : here.next? = none := next?_eq_none_iff.mpr hend
    cases n with
    | zero => simp [Pattern.searchWithin, hlast]
    | succ n => simp [Pattern.searchWithin, hnext, hlast]
  | plain hnext hmatch _ ih =>
    have hlt := left_lt_of_next? hnext
    obtain ⟨n, rfl⟩ : ∃ m, n = m + 1 := ⟨n - 1, by omega⟩
    simp only [Pattern.searchWithin, hnext, hmatch]
    exact ih hend hlast (by omega)
  | matched hmatch _ _ _ =>
    cases n with
    | zero => simp [Pattern.searchWithin, hmatch, seen]
    | succ n => simp [Pattern.searchWithin, hmatch, seen]

theorem Scans.search {view : Hit κ → α} {text : Text} {values : List α}
    (h : Scans pattern (seen view) (between none text) values (between before []))
    (hlast : pattern.matchAt (between before []) = none) :
    (pattern.search text).map view = values.head? :=
  h.searchWithin rfl hlast (Nat.le_refl _)

theorem search_of_matchAt {text : Text} {hit : Hit κ}
    (h : pattern.matchAt (between none text) = some hit) : pattern.search text = some hit := by
  rw [Pattern.search, searchFrom, start_eq]
  cases (between none text).left with
  | zero => exact h
  | succ n => rw [Pattern.searchWithin, h]

/-- Where a search finds nothing there is no match at any place ahead. -/
theorem matchAt_of_searchFrom {passed rest : Text}
    (h : pattern.searchFrom (between before (passed ++ rest)) = none) :
    pattern.matchAt (between (behind before passed) rest) = none := by
  induction passed generalizing before with
  | nil =>
    rw [List.nil_append, searchFrom] at h
    cases hleft : (between before rest).left with
    | zero => rwa [hleft] at h
    | succ n =>
      rw [hleft, Pattern.searchWithin] at h
      split at h
      · cases h
      · assumption
  | cons c passed ih =>
    refine ih ?_
    rw [searchFrom, between_left, List.cons_append, List.length_cons, Pattern.searchWithin] at h
    split at h
    · cases h
    · exact h

theorem hits_of_matchAt {text : Text} {hit : Hit κ}
    (h : pattern.matchAt (between none text) = some hit)
    (hlt : hit.stop.left < (between none text).left) : ∃ more, pattern.hits text = hit :: more := by
  cases text with
  | nil => simp at hlt
  | cons c text =>
    have hpieces : pattern.pieces (c :: text) =
        .matched hit :: pattern.piecesFrom text.length hit.stop [] := by
      rw [pieces, start_eq, List.length_cons, piecesFrom, next?_between_cons]
      simp only [h]
      rw [if_pos hlt, piecesFrom_reverse]
      rfl
    rw [hits, hpieces]
    exact ⟨_, rfl⟩

/-- Nowhere inside `passed`, with `rest` after it, does the pattern match. -/
def Quiet (pattern : Pattern κ) : Option Char → Text → Text → Prop
  | _, [], _ => True
  | before, c :: passed, rest =>
    pattern.matchAt (between before (c :: (passed ++ rest))) = none ∧
      Quiet pattern (some c) passed rest

theorem Quiet.append {first second rest : Text}
    (hfirst : Quiet pattern before first (second ++ rest))
    (hsecond : Quiet pattern (behind before first) second rest) :
    Quiet pattern before (first ++ second) rest := by
  induction first generalizing before with
  | nil => exact hsecond
  | cons c first ih =>
    refine ⟨?_, ih hfirst.2 hsecond⟩
    change pattern.matchAt (between before (c :: (first ++ second ++ rest))) = none
    rw [List.append_assoc]
    exact hfirst.1

theorem quiet_of_forall {passed rest : Text} (h : ∀ front c more, passed = front ++ c :: more →
    pattern.matchAt (between (behind before front) (c :: (more ++ rest))) = none) :
      Quiet pattern before passed rest := by
  induction passed generalizing before with
  | nil => trivial
  | cons c passed ih =>
    refine ⟨h [] c passed rfl, ih ?_⟩
    rintro front d more rfl
    exact h (c :: front) d more rfl

theorem Quiet.matchAt_none {front more rest : Text} (h : Quiet pattern before (front ++ more) rest)
    (hne : more ≠ []) :
    pattern.matchAt (between (behind before front) (more ++ rest)) = none := by
  induction front generalizing before with
  | nil =>
    obtain ⟨c, more, rfl⟩ := List.exists_cons_of_ne_nil hne
    exact h.1
  | cons d front ih => exact ih h.2

/-- A pattern that matches only where a fixed piece begins is quiet in a text without that piece,
unless the piece goes on over the end of the text. -/
theorem quiet_of_not_isInfix {piece : Text}
    (hpattern : ∀ before text, ¬ piece <+: text → pattern.matchAt (between before text) = none)
    {passed rest : Text} (hpassed : ¬ piece <:+: passed)
    (hrest : ∀ c ∈ rest.head?, c ∉ piece.tail) :
    Quiet pattern before passed rest := by
  induction passed generalizing before with
  | nil => trivial
  | cons c passed ih =>
    refine ⟨hpattern before _ ?_, ih fun h => hpassed (h.trans (List.suffix_cons c passed).isInfix)⟩
    exact Text.not_isPrefix_append (fun h => hpassed h.isInfix) (List.cons_ne_nil c passed) hrest

theorem quiet_literal {piece : String} {passed rest : Text} (hpassed : ¬ piece.toList <:+: passed)
    (hrest : ∀ c ∈ rest.head?, c ∉ piece.toList.tail) :
    Quiet (literal piece : Pattern κ) before passed rest := by
  refine quiet_of_not_isInfix (fun before text h => ?_) hpassed hrest
  rw [matchAt, literal, run_exactly_of_not_isPrefix h]
  rfl

theorem Quiet.alt {first second : Pattern κ} {passed rest : Text}
    (hfirst : Quiet first before passed rest)
    (hsecond : Quiet second before passed rest) : Quiet (alt first second) before passed rest := by
  induction passed generalizing before with
  | nil => trivial
  | cons c passed ih =>
    refine ⟨?_, ih hfirst.2 hsecond.2⟩
    rw [matchAt, Option.map_eq_none_iff, run_alt, Option.map_eq_none_iff.mp hfirst.1,
      Option.map_eq_none_iff.mp hsecond.1]
    rfl

theorem quiet_flatMap {β : Type} {write : β → Text} {parts : List β}
    (h : ∀ part ∈ parts, ∀ before rest, Quiet pattern before (write part) rest)
    (before : Option Char) (rest : Text) : Quiet pattern before (parts.flatMap write) rest := by
  induction parts generalizing before with
  | nil => trivial
  | cons part parts ih =>
    obtain ⟨hpart, hparts⟩ := List.forall_mem_cons.mp h
    exact (hpart before _).append (ih hparts _)

theorem Quiet.scans {passed rest : Text} (h : Quiet pattern before passed rest)
    (collect : Piece κ → List α) :
    Scans pattern collect (between before (passed ++ rest))
      (passed.flatMap fun c => collect (.plain c))
      (between (behind before passed) rest) := by
  induction passed generalizing before with
  | nil => exact .done _
  | cons c passed ih => exact .plain rfl h.1 (ih h.2)

theorem Quiet.scans_written {passed rest : Text} (h : Quiet pattern before passed rest)
    (write : Hit κ → Text) :
    Scans pattern (written write) (between before (passed ++ rest)) passed
      (between (behind before passed) rest) := by
  have hscan := h.scans (written write)
  simpa only [written, List.flatMap_singleton'] using hscan

theorem Quiet.scans_seen {passed rest : Text} (h : Quiet pattern before passed rest)
    (view : Hit κ → α) :
    Scans pattern (seen view) (between before (passed ++ rest)) []
      (between (behind before passed) rest) := by
  have hscan := h.scans (seen view)
  have hnone : (passed.flatMap fun c => seen view (.plain c)) = [] :=
    List.flatMap_eq_nil_iff.mpr fun _ _ => rfl
  rwa [hnone] at hscan

theorem searchFrom_of_quiet {front tail : Text} {hit : Hit κ} (h : Quiet pattern before front tail)
    (hmatch : pattern.matchAt (between (behind before front) tail) = some hit) :
    pattern.searchFrom (between before (front ++ tail)) = some hit := by
  induction front generalizing before with
  | nil =>
    rw [List.nil_append, searchFrom]
    cases (between before tail).left with
    | zero => exact hmatch
    | succ n =>
      rw [Pattern.searchWithin, show pattern.matchAt (between before tail) =
        some hit from hmatch]
  | cons c front ih =>
    have hrest := ih h.2 hmatch
    rw [searchFrom, between_left] at hrest
    rw [searchFrom, between_left, List.cons_append, List.length_cons, Pattern.searchWithin, h.1]
    exact hrest

theorem search_of_quiet {text : Text} (h : Quiet pattern none text [])
    (hlast : pattern.matchAt (between (behind none text) []) = none) :
    pattern.search text = none := by
  have hscan := h.scans_seen id
  rw [List.append_nil] at hscan
  exact Option.map_eq_none_iff.mp (hscan.search hlast)

/-- A lazy run of characters passes over a piece where what follows it does not match. -/
theorem Quiet.run_starLazyOne {accepts : Char → Bool} {passed rest : Text}
    (h : Quiet pattern before passed rest)
    (hpassed : ∀ c ∈ passed, accepts c) :
    (starLazy (one accepts) ++ pattern).run ⟨between before (passed ++ rest), []⟩ some =
      (starLazy (one accepts) ++ pattern).run ⟨between (behind before passed) rest, []⟩ some := by
  induction passed generalizing before with
  | nil => rfl
  | cons c passed ih =>
    obtain ⟨hc, hpassed⟩ := List.forall_mem_cons.mp hpassed
    have hhere := Option.map_eq_none_iff.mp h.1
    have hitem : (one accepts).run ⟨between before (c :: (passed ++ rest)), []⟩ some =
        some ⟨between (some c) (passed ++ rest), ([] : List (κ × Span))⟩ := by
      simp [hc]
    exact (run_starLazy_step hhere hitem (by simp)).trans (ih h.2 hpassed)

/-- It does not get past a character that it does not take. -/
theorem Quiet.run_starLazyOne_none {accepts : Char → Bool} {first more rest : Text} {c : Char}
    (h : Quiet pattern before (first ++ c :: more) rest) (hfirst : ∀ d ∈ first, accepts d)
    (hc : accepts c = false) :
    (starLazy (one accepts) ++ pattern).run ⟨between before (first ++ c :: (more ++ rest)), []⟩
      some = none := by
  induction first generalizing before with
  | nil => exact run_starLazy_stop (Option.map_eq_none_iff.mp h.1) (by simp [hc])
  | cons d first ih =>
    obtain ⟨hd, hfirst⟩ := List.forall_mem_cons.mp hfirst
    have hsplit : (first ++ c :: more) ++ rest = first ++ c :: (more ++ rest) := by simp
    have hhere := Option.map_eq_none_iff.mp h.1
    rw [List.append_eq, hsplit] at hhere
    have hitem : (one accepts).run ⟨between before (d :: (first ++ c :: (more ++ rest))), []⟩ some =
        some ⟨between (some d) (first ++ c :: (more ++ rest)), ([] : List (κ × Span))⟩ := by
      simp [hd]
    exact (run_starLazy_step hhere hitem (by simp)).trans (ih h.2 hfirst)

theorem pieces_of_quiet {text : Text} (h : Quiet pattern none text []) :
    pattern.pieces text = text.map .plain := by
  have hscan := h.scans fun piece => [piece]
  rw [List.append_nil] at hscan
  have hpieces := hscan.pieces
  rwa [List.flatMap_singleton', ← List.map_eq_flatMap] at hpieces

theorem replace_of_quiet {write : Hit κ → Text} {text : Text} (h : Quiet pattern none text []) :
    pattern.replace write text = text := by
  have hscan := h.scans_written write
  rw [List.append_nil] at hscan
  exact hscan.replace

theorem hits_of_quiet {text : Text} (h : Quiet pattern none text []) : pattern.hits text = [] := by
  have hscan := h.scans_seen fun _ => ()
  rw [List.append_nil] at hscan
  exact List.map_eq_nil_iff.mp hscan.hits

/-- Every match begins with a character of the given class. -/
def Begins (pattern : Pattern κ) (accepts : Char → Bool) : Prop :=
  ∀ before text groups goOn, (∀ c ∈ text.head?, accepts c = false) →
    pattern.run ⟨between before text, groups⟩ goOn = none

namespace Begins

variable {accepts : Char → Bool}

theorem one (accepts : Char → Bool) : Begins (one accepts : Pattern κ) accepts :=
  fun _ _ _ _ h => run_one_of_head? h

theorem append {first : Pattern κ} (h : Begins first accepts) (second : Pattern κ) :
    Begins (first ++ second) accepts :=
  fun before text groups _ hhead => h before text groups _ hhead

theorem literal {text : String} {c : Char} {rest : Text} (h : text.toList = c :: rest) :
    Begins (literal text : Pattern κ) (· == c) := by
  rw [Pattern.literal, h]
  exact (one (· == c)).append (exactly rest)

theorem group {body : Pattern κ} (h : Begins body accepts) (key : κ) :
    Begins (group key body) accepts :=
  fun before text groups _ hhead => h before text groups _ hhead

theorem exists_cons (h : Begins pattern accepts) {here last : Place κ}
    {goOn : Place κ → Option (Place κ)}
    (hrun : pattern.run here goOn = some last) : ∃ c more, here.cursor.rest = c :: more ∧
    accepts c := by
  have hhead : ¬ ∀ c ∈ here.cursor.rest.head?, accepts c = false := by
    intro hnone
    have hfail := h here.cursor.before here.cursor.rest here.groups goOn hnone
    rw [← eq_between] at hfail
    exact absurd (hfail.symm.trans hrun) nofun
  cases hrest : here.cursor.rest with
  | nil => exact absurd (hrest ▸ nofun) hhead
  | cons c more =>
    refine ⟨c, more, rfl, ?_⟩
    rw [← Bool.not_eq_false]
    intro hc
    refine hhead ?_
    rw [hrest]
    rintro d ⟨⟩
    exact hc

theorem matchAt (h : Begins pattern accepts) {text : Text}
    (hhead : ∀ c ∈ text.head?, accepts c = false) :
    pattern.matchAt (between before text) = none := by
  rw [Pattern.matchAt, h before text [] some hhead]
  rfl

theorem quiet {passed : Text} (h : Begins pattern accepts)
    (hpassed : ∀ c ∈ passed, accepts c = false) (before : Option Char) (rest : Text) :
    Quiet pattern before passed rest := by
  induction passed generalizing before with
  | nil => trivial
  | cons c passed ih =>
    refine ⟨h.matchAt ?_, ih (fun d hd => hpassed d (List.mem_cons_of_mem c hd)) (some c)⟩
    rintro d ⟨⟩
    exact hpassed c List.mem_cons_self

end Begins

/-- Wherever `passed` stands before a text of the given kind, a scan of it collects the given values
and comes to its end. -/
structure Yields (pattern : Pattern κ) (collect : Piece κ → List α) (ahead : Text → Prop)
    (passed : Text) (values : List α) : Prop where
  scans : ∀ before rest, ahead rest →
    ∃ after, Scans pattern collect (between before (passed ++ rest)) values (between after rest)
  ahead : ∀ rest, ahead rest → ahead (passed ++ rest)

def anything (_ : Text) : Prop := True

namespace Yields

variable {ahead : Text → Prop} {first second : Text} {values others : List α}

theorem nil : Yields pattern collect ahead [] [] :=
  ⟨fun before _ _ => ⟨before, .done _⟩, fun _ h => h⟩

theorem append (hfirst : Yields pattern collect ahead first values)
    (hsecond : Yields pattern collect ahead second others) :
    Yields pattern collect ahead (first ++ second) (values ++ others) := by
  constructor
  · intro before rest h
    obtain ⟨middle, hscan⟩ := hfirst.scans before (second ++ rest) (hsecond.ahead rest h)
    obtain ⟨after, hscan'⟩ := hsecond.scans middle rest h
    rw [List.append_assoc]
    exact ⟨after, hscan.append hscan'⟩
  · intro rest h
    rw [List.append_assoc]
    exact hfirst.ahead _ (hsecond.ahead rest h)

theorem of_anything (h : Yields pattern collect anything first values)
    (hahead : ∀ rest, ahead rest → ahead (first ++ rest)) :
    Yields pattern collect ahead first values :=
  ⟨fun before rest _ => h.scans before rest trivial, hahead⟩

/-- A piece that is followed by one of the kind that it needs needs nothing else. -/
theorem append_closing (hfirst : Yields pattern collect ahead first values)
    (hsecond : Yields pattern collect anything second others)
    (h : ∀ rest, ahead (second ++ rest)) :
    Yields pattern collect anything (first ++ second) (values ++ others) := by
  refine ⟨fun before rest _ => ?_, fun _ _ => trivial⟩
  obtain ⟨middle, hscan⟩ := hfirst.scans before (second ++ rest) (h rest)
  obtain ⟨after, hscan'⟩ := hsecond.scans middle rest trivial
  rw [List.append_assoc]
  exact ⟨after, hscan.append hscan'⟩

theorem flatMap {β : Type} {write : β → Text} {expected : β → List α} {parts : List β}
    (h : ∀ part ∈ parts, Yields pattern collect ahead (write part) (expected part)) :
    Yields pattern collect ahead (parts.flatMap write) (parts.flatMap expected) := by
  induction parts with
  | nil => exact nil
  | cons part parts ih =>
    obtain ⟨hpart, hparts⟩ := List.forall_mem_cons.mp h
    exact hpart.append (ih hparts)

theorem flatMap_nil {β : Type} {write : β → Text} {parts : List β}
    (h : ∀ part ∈ parts, Yields pattern collect ahead (write part) []) :
    Yields pattern collect ahead (parts.flatMap write) [] := by
  have hyields : Yields pattern collect ahead (parts.flatMap write) (parts.flatMap fun _ => []) :=
    flatMap h
  rwa [List.flatMap_eq_nil_iff.mpr fun _ _ => rfl] at hyields

theorem hits {view : Hit κ → α} {text : Text}
    (h : Yields pattern (seen view) ahead text values) (hend : ahead []) :
    (pattern.hits text).map view = values := by
  obtain ⟨after, hscan⟩ := h.scans none [] hend
  rw [List.append_nil] at hscan
  exact hscan.hits

theorem replace {write : Hit κ → Text} {text result : Text}
    (h : Yields pattern (written write) ahead text result) (hend : ahead []) :
    pattern.replace write text = result := by
  obtain ⟨after, hscan⟩ := h.scans none [] hend
  rw [List.append_nil] at hscan
  exact hscan.replace

theorem search {view : Hit κ → α} {text : Text}
    (h : Yields pattern (seen view) ahead text values) (hend : ahead [])
    (hlast : ∀ before, pattern.matchAt (between before []) = none) :
    (pattern.search text).map view = values.head? := by
  obtain ⟨after, hscan⟩ := h.scans none [] hend
  rw [List.append_nil] at hscan
  exact hscan.search (hlast after)

/-- A piece that begins with a match collects what the match shows when the rest of the piece is
quiet. -/
theorem of_hit {view : Hit κ → α} {passed : Text} {value : α}
    (hahead : ∀ rest, ahead rest → ahead (passed ++ rest))
    (h : ∀ before rest, ahead rest → ∃ hit after left,
      pattern.matchAt (between before (passed ++ rest)) = some hit ∧
      hit.stop = between after (left ++ rest) ∧ left.length < passed.length ∧ view hit = value ∧
      Quiet pattern after left rest) :
    Yields pattern (seen view) ahead passed [value] := by
  refine ⟨fun before rest hrest => ?_, hahead⟩
  obtain ⟨hit, after, left, hmatch, hstop, hlength, rfl, hquiet⟩ := h before rest hrest
  have hlt : hit.stop.left < (between before (passed ++ rest)).left := by
    rw [hstop]
    simpa using hlength
  have hsingle := Scans.single view hmatch hlt
  rw [hstop] at hsingle
  exact ⟨behind after left, hsingle.append (hquiet.scans_seen view)⟩

theorem of_quiet {view : Hit κ → α} {passed : Text}
    (hahead : ∀ rest, ahead rest → ahead (passed ++ rest))
    (h : ∀ before rest, ahead rest → Quiet pattern before passed rest) :
    Yields pattern (seen view) ahead passed [] :=
  ⟨fun before rest hrest => ⟨_, (h before rest hrest).scans_seen view⟩, hahead⟩

theorem written_of_quiet {write : Hit κ → Text} {passed : Text}
    (hahead : ∀ rest, ahead rest → ahead (passed ++ rest))
    (h : ∀ before rest, ahead rest → Quiet pattern before passed rest) :
    Yields pattern (written write) ahead passed passed :=
  ⟨fun before rest hrest => ⟨_, (h before rest hrest).scans_written write⟩, hahead⟩

theorem of_match {passed : Text} (hahead : ∀ rest, ahead rest → ahead (passed ++ rest))
    (hne : passed ≠ []) (h : ∀ before rest, ahead rest → ∃ hit after,
      pattern.matchAt (between before (passed ++ rest)) = some hit ∧ hit.stop = between after rest ∧
      collect (.matched hit) = values) : Yields pattern collect ahead passed values := by
  refine ⟨fun before rest hrest => ?_, hahead⟩
  obtain ⟨hit, after, hmatch, hstop, rfl⟩ := h before rest hrest
  have hlt : hit.stop.left < (between before (passed ++ rest)).left := by
    rw [hstop]
    simpa using List.length_pos_iff.mpr hne
  have hscan : Scans pattern collect _ (collect (.matched hit) ++ []) hit.stop :=
    .matched hmatch hlt (.done _)
  rw [List.append_nil, hstop] at hscan
  exact ⟨after, hscan⟩

end Yields

section Avoids
variable {lead : Text → Option Char} {mark : Char}

/-- No place before `rest` leads to the mark, as long as there is no mark in between. -/
def Avoids (lead : Text → Option Char) (mark : Char) (rest : Text) : Prop :=
  ∀ passed, passed ≠ [] → mark ∉ passed → lead (passed ++ rest) ≠ some mark

theorem Avoids.append {passed rest : Text} (h : Avoids lead mark rest) (hpassed : mark ∉ passed) :
    Avoids lead mark (passed ++ rest) := by
  intro more hne hmore
  rw [← List.append_assoc]
  exact h (more ++ passed) (by simp [hne]) fun hmem => (List.mem_append.mp hmem).elim hmore hpassed

theorem quiet_of_avoids
    (hpattern : ∀ before text, lead text ≠ some mark → pattern.matchAt (between before text) = none)
    {passed rest : Text} (hpassed : mark ∉ passed) (h : Avoids lead mark rest) :
    Quiet pattern before passed rest := by
  induction passed generalizing before with
  | nil => trivial
  | cons c passed ih =>
    exact ⟨hpattern before _ (h (c :: passed) (by simp) hpassed), ih fun hmem =>
      hpassed (.tail c hmem)⟩

theorem yields_of_avoids
    (hpattern : ∀ before text, lead text ≠ some mark → pattern.matchAt (between before text) = none)
    {passed : Text} (hpassed : mark ∉ passed) :
    Yields pattern (seen view) (Avoids lead mark) passed [] :=
  .of_quiet (fun _ h => h.append hpassed) fun _ _ h => quiet_of_avoids hpattern hpassed h

end Avoids

end Visualforce.Pattern
