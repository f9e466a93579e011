import Mathlib.Data.List.TakeWhile
import Mathlib.Data.Nat.Init
import Mathlib.Tactic.SplitIfs
import Visualforce.Pattern.Scan
import Visualforce.Proofs.Text.Piece

/-! # Running a pattern

Equations for the runs of patterns: a text ahead that is written as a piece and a rest is matched
piece by piece. A greedy repetition goes on after its longest form when that leads to a match, and a
lazy one passes a unit as long as nothing after it matches.
-/
namespace Visualforce

namespace Cursor

def between (before : Option Char) (rest : Text) : Cursor := { start rest with before }

def behind (before : Option Char) (passed : Text) : Option Char :=
  passed.foldl (fun _ c => some c) before

@[simp] theorem behind_nil (before : Option Char) : behind before [] = before := rfl

@[simp] theorem behind_cons (before : Option Char) (c : Char) (passed : Text) :
    behind before (c :: passed) = behind (some c) passed := rfl

theorem behind_append (before : Option Char) (first second : Text) :
    behind before (first ++ second) = behind (behind before first) second :=
  List.foldl_append

theorem behind_concat (before : Option Char) (passed : Text) (c : Char) :
    behind before (passed ++ [c]) = some c := by
  rw [behind_append]
  rfl

theorem behind_none (passed : Text) : behind none passed = passed.getLast? := by
  rcases List.eq_nil_or_concat passed with rfl | ⟨front, c, rfl⟩
  · rfl
  · rw [List.concat_eq_append, behind_concat, List.getLast?_concat]

theorem eq_between (here : Cursor) : here = between here.before here.rest := by
  obtain ⟨before, rest, left, rfl⟩ := here
  rfl

theorem start_eq (text : Text) : start text = between none text := rfl

@[simp] theorem between_before (before : Option Char) (rest : Text) :
    (between before rest).before = before := rfl

@[simp] theorem between_rest (before : Option Char) (rest : Text) :
    (between before rest).rest = rest := rfl

@[simp] theorem between_left (before : Option Char) (rest : Text) :
    (between before rest).left = rest.length := rfl

@[simp] theorem next?_between_nil (before : Option Char) : (between before []).next? = none := rfl

@[simp] theorem next?_between_cons (before : Option Char) (c : Char) (rest : Text) :
    (between before (c :: rest)).next? = some (c, between (some c) rest) := rfl

/-- The second cursor comes behind a text that is passed from the first one. -/
def Reaches (here there : Cursor) : Prop :=
  ∃ passed, here.rest = passed ++ there.rest ∧ there.before = behind here.before passed

theorem Reaches.refl (here : Cursor) : Reaches here here := ⟨[], rfl, rfl⟩

theorem Reaches.trans {here middle there : Cursor} (h : Reaches here middle)
    (h' : Reaches middle there) :
    Reaches here there := by
  obtain ⟨passed, hrest, hbefore⟩ := h
  obtain ⟨more, hrest', hbefore'⟩ := h'
  exact ⟨passed ++ more, by rw [hrest, hrest', List.append_assoc], by
    rw [hbefore', hbefore, behind_append]⟩

theorem Reaches.left_le {here there : Cursor} (h : Reaches here there) :
    there.left ≤ here.left := by
  obtain ⟨passed, hrest, -⟩ := h
  rw [there.left_eq, here.left_eq, hrest, List.length_append]
  exact Nat.le_add_left ..

theorem reaches_of_next? {here next : Cursor} {c : Char} (h : here.next? = some (c, next)) :
    Reaches here next := by
  rw [eq_between here] at h
  cases hrest : here.rest with
  | nil => simp [hrest] at h
  | cons d rest =>
    simp only [hrest, next?_between_cons, Option.some.injEq, Prod.mk.injEq] at h
    obtain ⟨rfl, rfl⟩ := h
    exact ⟨[d], hrest, rfl⟩

/-- What lies between two places is the piece that was passed. -/
theorem spanTo_text (before after : Option Char) (passed rest : Text) :
    ((between before (passed ++ rest)).spanTo (between after rest)).text = passed := by
  simp [spanTo, Span.text]

/-- What was passed before is in front of what lies between two places. -/
theorem spanTo_append (before after : Option Char) (passed : Text) {rest : Text} {stop : Cursor}
    (h : stop.left ≤ rest.length) : ((between before (passed ++ rest)).spanTo stop).text =
      passed ++ ((between after rest).spanTo stop).text := by
  simp only [spanTo, Span.text, between_rest, between_left, List.length_append, Nat.add_sub_assoc h]
  exact List.take_length_add_append _

end Cursor

namespace Pattern
open Cursor

variable {κ : Type} {here next last : Place κ} {groups : List (κ × Span)} {before : Option Char}
variable {goOn : Place κ → Option (Place κ)} {item : Pattern κ}

@[simp] theorem run_append (first second : Pattern κ) :
    (first ++ second).run here goOn = first.run here fun middle => second.run middle goOn := rfl

@[simp] theorem run_empty : (empty : Pattern κ).run here goOn = goOn here := rfl

@[simp] theorem run_alt (first second : Pattern κ) :
    (alt first second).run here goOn = (first.run here goOn).or (second.run here goOn) := by
  rw [run]
  cases first.run here goOn <;> rfl

@[simp] theorem run_group (key : κ) (body : Pattern κ) :
    (group key body).run here goOn = body.run here fun last =>
      goOn ⟨last.cursor, (key, here.cursor.spanTo last.cursor) :: last.groups⟩ := rfl

@[simp] theorem run_guard (holds : Cursor → Bool) :
    (guard holds).run here goOn = if holds here.cursor then goOn here else none := rfl

@[simp] theorem run_one_nil (accepts : Char → Bool) :
    (one accepts).run ⟨between before [], groups⟩ goOn = none := rfl

@[simp] theorem run_one_cons (accepts : Char → Bool) (c : Char) (rest : Text) :
    (one accepts).run ⟨between before (c :: rest), groups⟩ goOn =
      if accepts c then goOn ⟨between (some c) rest, groups⟩ else none := rfl

theorem run_one_of_head? {accepts : Char → Bool} {text : Text}
    (h : ∀ c ∈ text.head?, accepts c = false) :
    (one accepts).run ⟨between before text, groups⟩ goOn = none := by
  cases text with
  | nil => rfl
  | cons c rest => simp [h c rfl]

theorem run_wordEdge (text : Text) :
    (wordEdge : Pattern κ).run ⟨between before text, groups⟩ goOn =
      if before.any Text.isWord != text.head?.any Text.isWord then
        goOn ⟨between before text, groups⟩ else none := rfl

theorem run_wordEdge_ahead {text : Text} (h : text.head?.any Text.isWord) :
    (wordEdge : Pattern κ).run ⟨between before text, groups⟩ goOn =
      if before.any Text.isWord then none else goOn ⟨between before text, groups⟩ := by
  rw [run_wordEdge, h]
  cases before.any Text.isWord <;> rfl

theorem run_wordEdge_behind {text : Text} (h : before.any Text.isWord) :
    (wordEdge : Pattern κ).run ⟨between before text, groups⟩ goOn =
      if text.head?.any Text.isWord then none else goOn ⟨between before text, groups⟩ := by
  rw [run_wordEdge, h]
  cases text.head?.any Text.isWord <;> rfl

@[simp] theorem run_maybe :
    (maybe item).run here goOn = (item.run here goOn).or (goOn here) := by
  simp [maybe]

@[simp] theorem run_exactly_append (passed rest : Text) :
    (exactly passed).run ⟨between before (passed ++ rest), groups⟩ goOn =
      goOn ⟨between (behind before passed) rest, groups⟩ := by
  induction passed generalizing before with
  | nil => rfl
  | cons c passed ih =>
    have hcons : (exactly (c :: passed) : Pattern κ) = char c ++ exactly passed := rfl
    simp [hcons, char, ih]

theorem run_exactly_of_not_isPrefix {passed text : Text} (h : ¬ passed <+: text) :
    (exactly passed).run ⟨between before text, groups⟩ goOn = none := by
  induction passed generalizing before text with
  | nil => exact absurd (List.nil_prefix) h
  | cons c passed ih =>
    have hcons : (exactly (c :: passed) : Pattern κ) = char c ++ exactly passed := rfl
    cases text with
    | nil => simp [hcons, char]
    | cons d text =>
      rw [List.cons_prefix_cons, not_and] at h
      simp only [hcons, char, run_append, run_one_cons, beq_iff_eq]
      split_ifs with hd
      · exact ih (h hd.symm)
      · rfl

theorem run_exactly_concat (first second : Text) :
    (exactly (first ++ second)).run here goOn = (exactly first ++ exactly second).run here
      goOn := by
  induction first generalizing here with
  | nil => rfl
  | cons c first ih =>
    have hcons : ∀ text : Text, (exactly (c :: text) : Pattern κ) = char c ++ exactly text :=
      fun _ => rfl
    rw [List.cons_append, hcons, hcons, run_append, run_append, run_append]
    exact congrArg _ (funext fun middle => ih)

theorem run_caseless_append (passed rest : Text) :
    (caseless passed).run ⟨between before (passed ++ rest), groups⟩ goOn =
      goOn ⟨between (behind before passed) rest, groups⟩ := by
  induction passed generalizing before with
  | nil => rfl
  | cons c passed ih =>
    have hcons : (caseless (c :: passed) : Pattern κ) =
      one (Text.sameUpToCase c) ++ caseless passed := rfl
    simp [hcons, Text.sameUpToCase, ih]

theorem stations_append (step : Place κ → Option (Place κ)) (n : Nat) (here : Place κ)
    (passed : List (Place κ)) :
    stations step n here passed = stations step n here [] ++ passed := by
  induction n generalizing here passed with
  | zero => rfl
  | succ n ih =>
    simp only [stations]
    cases step here with
    | none => rfl
    | some next =>
      simp only
      split_ifs
      · rw [ih next (here :: passed), ih next [here], List.append_assoc]
        rfl
      · rfl

theorem stations_succ (step : Place κ → Option (Place κ)) {n : Nat} {here : Place κ}
    (passed : List (Place κ)) (hn : here.cursor.left ≤ n) :
    stations step (n + 1) here passed = stations step n here passed := by
  induction n generalizing here passed with
  | zero =>
    simp only [stations]
    cases step here with
    | none => rfl
    | some next => exact if_neg (by omega)
  | succ n ih =>
    rw [stations, stations]
    cases step here with
    | none => rfl
    | some next =>
      simp only
      split_ifs with hlt
      · exact ih _ (by omega)
      · rfl

/-- More steps than there are characters ahead change nothing. -/
theorem stations_enough (step : Place κ → Option (Place κ)) {n : Nat} {here : Place κ}
    (passed : List (Place κ)) (hn : here.cursor.left ≤ n) :
    stations step n here passed = stations step here.cursor.left here passed := by
  induction n, hn using Nat.le_induction with
  | base => rfl
  | succ n hn ih => rw [stations_succ step passed hn, ih]

/-- A unit that makes progress is taken; only if nothing follows after it is it left out. -/
theorem run_star_step (hitem : item.run here some = some next)
    (hlt : next.cursor.left < here.cursor.left) :
    (star item).run here goOn = ((star item).run next goOn).or (goOn here) := by
  obtain ⟨n, hn⟩ : ∃ n, here.cursor.left = n + 1 := ⟨here.cursor.left - 1, by omega⟩
  have hstations : stations (fun p => item.run p some) here.cursor.left here [] =
      stations (fun p => item.run p some) next.cursor.left next [] ++ [here] := by
    rw [hn, stations, hitem]
    simp only [if_pos hlt]
    rw [stations_enough _ _ (by omega), stations_append]
  simp only [star, run, hstations, List.findSome?_append, List.findSome?_singleton]

theorem run_star_stop (hitem : item.run here some = none) :
    (star item).run here goOn = goOn here := by
  have hstations : stations (fun p => item.run p some) here.cursor.left here [] = [here] := by
    cases here.cursor.left with
    | zero => rfl
    | succ n => rw [stations, hitem]
  simp only [star, run, hstations, List.findSome?_singleton]

theorem run_star_step_of_some (hitem : item.run here some = some next)
    (hlt : next.cursor.left < here.cursor.left) (hgo : (star item).run next goOn = some last) :
    (star item).run here goOn = some last := by
  rw [run_star_step hitem hlt, hgo, Option.some_or]

/-- The longest run is taken when it leads to a match. -/
theorem run_starOne_of_some {accepts : Char → Bool} {passed rest : Text}
    (hpassed : ∀ c ∈ passed, accepts c) (hrest : ∀ c ∈ rest.head?, accepts c = false)
    (hgo : goOn ⟨between (behind before passed) rest, groups⟩ = some last) :
    (star (one accepts)).run ⟨between before (passed ++ rest), groups⟩ goOn = some last := by
  induction passed generalizing before with
  | nil => rw [List.nil_append, run_star_stop (run_one_of_head? hrest)]; exact hgo
  | cons c passed ih =>
    have hitem : (one accepts).run ⟨between before (c :: (passed ++ rest)), groups⟩ some =
        some ⟨between (some c) (passed ++ rest), groups⟩ := by
      simp [hpassed c List.mem_cons_self]
    refine run_star_step_of_some hitem (by simp) (ih ?_ hgo)
    exact fun d hd => hpassed d (List.mem_cons_of_mem c hd)

/-- A run of characters none of which can come next in its place is taken as a whole or not at
all. -/
theorem run_starOne {accepts : Char → Bool} {passed rest : Text}
    (hpassed : ∀ c ∈ passed, accepts c) (hrest : ∀ c ∈ rest.head?, accepts c = false)
    (hrefuse : ∀ before c rest, accepts c → goOn ⟨between before (c :: rest), groups⟩ = none) :
    (star (one accepts)).run ⟨between before (passed ++ rest), groups⟩ goOn =
      goOn ⟨between (behind before passed) rest, groups⟩ := by
  induction passed generalizing before with
  | nil => exact run_star_stop (run_one_of_head? hrest)
  | cons c passed ih =>
    have hc := hpassed c List.mem_cons_self
    have hitem : (one accepts).run ⟨between before (c :: (passed ++ rest)), groups⟩ some =
        some ⟨between (some c) (passed ++ rest), groups⟩ := by
      simp [hc]
    rw [List.cons_append, run_star_step hitem (by simp), hrefuse before c _ hc, Option.or_none]
    exact ih fun d hd => hpassed d (List.mem_cons_of_mem c hd)

/-- When nothing of a run leads to a match, the run does not. -/
theorem run_starOne_none {accepts : Char → Bool} (text : Text)
    (hgo : ∀ passed rest, text = passed ++ rest → (∀ c ∈ passed, accepts c) →
      goOn ⟨between (behind before passed) rest, groups⟩ = none) :
    (star (one accepts)).run ⟨between before text, groups⟩ goOn = none := by
  have hhere := hgo [] text rfl (by simp)
  induction text generalizing before with
  | nil => rw [run_star_stop (by simp)]; exact hhere
  | cons c text ih =>
    by_cases hc : accepts c
    · have hitem : (one accepts).run ⟨between before (c :: text), groups⟩ some =
          some ⟨between (some c) text, groups⟩ := by
        simp [hc]
      rw [run_star_step hitem (by simp), ih]
      · rw [Option.none_or]
        exact hhere
      · intro passed rest heq hpassed
        exact hgo (c :: passed) rest (by rw [heq]; rfl) (List.forall_mem_cons.mpr ⟨hc, hpassed⟩)
      · exact hgo [c] text rfl (by simpa using hc)
    · rw [run_star_stop (by simp [hc])]
      exact hhere

/-- As `run_starOne`, for whatever run lies ahead. -/
theorem run_starOne_takeWhile {accepts : Char → Bool} (text : Text)
    (hrefuse : ∀ before c rest, accepts c → goOn ⟨between before (c :: rest), groups⟩ = none) :
    (star (one accepts)).run ⟨between before text, groups⟩ goOn =
      goOn ⟨between (behind before (text.takeWhile accepts)) (text.dropWhile accepts), groups⟩ := by
  rw [← run_starOne (fun c => List.mem_takeWhile_imp) (fun c => Text.not_of_mem_head?_dropWhile)
    hrefuse, List.takeWhile_append_dropWhile]

theorem run_plusOne_of_some {accepts : Char → Bool} {passed rest : Text}
    (hne : passed ≠ []) (hpassed : ∀ c ∈ passed, accepts c)
    (hrest : ∀ c ∈ rest.head?, accepts c = false)
    (hgo : goOn ⟨between (behind before passed) rest, groups⟩ = some last) :
    (plus (one accepts)).run ⟨between before (passed ++ rest), groups⟩ goOn = some last := by
  cases passed with
  | nil => exact absurd rfl hne
  | cons c passed =>
    simp only [plus, run_append, List.cons_append, run_one_cons, hpassed c List.mem_cons_self,
      if_true]
    exact run_starOne_of_some (fun d hd => hpassed d (List.mem_cons_of_mem c hd)) hrest hgo

/-- As `run_starOne`, for a run of at least one character. -/
theorem run_plusOne {accepts : Char → Bool} {passed rest : Text} (hne : passed ≠ [])
    (hpassed : ∀ c ∈ passed, accepts c) (hrest : ∀ c ∈ rest.head?, accepts c = false)
    (hrefuse : ∀ before c rest, accepts c → goOn ⟨between before (c :: rest), groups⟩ = none) :
    (plus (one accepts)).run ⟨between before (passed ++ rest), groups⟩ goOn =
      goOn ⟨between (behind before passed) rest, groups⟩ := by
  obtain ⟨c, passed, rfl⟩ := List.exists_cons_of_ne_nil hne
  obtain ⟨hc, hpassed⟩ := List.forall_mem_cons.mp hpassed
  simp only [plus, run_append, List.cons_append, run_one_cons, hc, if_true]
  exact run_starOne hpassed hrest hrefuse

theorem run_plusOne_none {accepts : Char → Bool} (text : Text)
    (hgo : ∀ passed rest, text = passed ++ rest → (∀ c ∈ passed, accepts c) →
      goOn ⟨between (behind before passed) rest, groups⟩ = none) :
    (plus (one accepts)).run ⟨between before text, groups⟩ goOn = none := by
  cases text with
  | nil => rfl
  | cons c text =>
    simp only [plus, run_append, run_one_cons]
    split_ifs with hc
    · apply run_starOne_none text
      intro passed rest heq hpassed
      exact hgo (c :: passed) rest (by rw [heq]; rfl) (List.forall_mem_cons.mpr ⟨hc, hpassed⟩)
    · rfl

theorem shortest_succ (step goOn : Place κ → Option (Place κ)) {n : Nat} {here : Place κ}
    (hn : here.cursor.left ≤ n) :
    shortest step goOn (n + 1) here = shortest step goOn n here := by
  induction n generalizing here with
  | zero =>
    simp only [shortest]
    cases goOn here with
    | some last => rfl
    | none =>
      cases step here with
      | none => rfl
      | some next => exact if_neg (by omega)
  | succ n ih =>
    rw [shortest, shortest]
    cases goOn here with
    | some last => rfl
    | none =>
      cases step here with
      | none => rfl
      | some next =>
        simp only
        split_ifs with hlt
        · exact ih (by omega)
        · rfl

theorem shortest_enough (step goOn : Place κ → Option (Place κ)) {n : Nat} {here : Place κ}
    (hn : here.cursor.left ≤ n) :
    shortest step goOn n here = shortest step goOn here.cursor.left here := by
  induction n, hn using Nat.le_induction with
  | base => rfl
  | succ n hn ih => rw [shortest_succ step goOn hn, ih]

theorem run_starLazy_here (hgo : goOn here = some last) :
    (starLazy item).run here goOn = some last := by
  simp only [starLazy, run]
  cases here.cursor.left with
  | zero => exact hgo
  | succ n => rw [shortest, hgo]

theorem run_starLazy_step (hgo : goOn here = none) (hitem : item.run here some = some next)
    (hlt : next.cursor.left < here.cursor.left) :
    (starLazy item).run here goOn = (starLazy item).run next goOn := by
  obtain ⟨n, hn⟩ : ∃ n, here.cursor.left = n + 1 := ⟨here.cursor.left - 1, by omega⟩
  simp only [starLazy, run]
  rw [hn, shortest, hgo]
  simp only [hitem, if_pos hlt]
  exact shortest_enough _ _ (by omega)

theorem run_starLazy_stop (hgo : goOn here = none) (hitem : item.run here some = none) :
    (starLazy item).run here goOn = none := by
  simp only [starLazy, run]
  cases here.cursor.left with
  | zero => exact hgo
  | succ n => rw [shortest, hgo, hitem]

theorem run_starLazyOne_cons {accepts : Char → Bool} {c : Char} {rest : Text} :
    (starLazy (one accepts)).run ⟨between before (c :: rest), groups⟩ goOn =
      (goOn ⟨between before (c :: rest), groups⟩).or
        (if accepts c then (starLazy (one accepts)).run ⟨between (some c) rest, groups⟩ goOn
          else none) := by
  have hitem : (one accepts).run ⟨between before (c :: rest), groups⟩ some =
      if accepts c then some ⟨between (some c) rest, groups⟩ else none :=
        run_one_cons accepts c rest
  cases hgo : goOn ⟨between before (c :: rest), groups⟩ with
  | some last => exact run_starLazy_here hgo
  | none =>
    rw [Option.none_or]
    split_ifs at hitem ⊢ with hc
    · exact run_starLazy_step hgo hitem (by simp)
    · exact run_starLazy_stop hgo hitem

/-- Characters are passed up to the first place from which the match goes on. -/
theorem run_starLazyOne {accepts : Char → Bool} {passed rest : Text}
    (hpassed : ∀ c ∈ passed, accepts c)
    (hskip : ∀ first c second, passed = first ++ c :: second →
      goOn ⟨between (behind before first) (c :: (second ++ rest)), groups⟩ = none)
    (hgo : goOn ⟨between (behind before passed) rest, groups⟩ = some last) :
    (starLazy (one accepts)).run ⟨between before (passed ++ rest), groups⟩ goOn = some last := by
  induction passed generalizing before with
  | nil => exact run_starLazy_here hgo
  | cons c passed ih =>
    have hitem : (one accepts).run ⟨between before (c :: (passed ++ rest)), groups⟩ some =
        some ⟨between (some c) (passed ++ rest), groups⟩ := by
      simp [hpassed c List.mem_cons_self]
    have hhere := hskip [] c passed rfl
    rw [behind_nil] at hhere
    rw [List.cons_append, run_starLazy_step hhere hitem (by simp)]
    refine ih (fun d hd => hpassed d (List.mem_cons_of_mem c hd)) ?_ hgo
    rintro first d second rfl
    exact hskip (c :: first) d second rfl

/-- When nothing of a run leads to a match, its shortest form does not either. -/
theorem run_starLazyOne_none {accepts : Char → Bool} (text : Text)
    (hgo : ∀ passed rest, text = passed ++ rest → (∀ c ∈ passed, accepts c) →
      goOn ⟨between (behind before passed) rest, groups⟩ = none) :
    (starLazy (one accepts)).run ⟨between before text, groups⟩ goOn = none := by
  have hhere := hgo [] text rfl (by simp)
  rw [behind_nil] at hhere
  induction text generalizing before with
  | nil => exact run_starLazy_stop hhere (by simp)
  | cons c text ih =>
    by_cases hc : accepts c
    · have hitem : (one accepts).run ⟨between before (c :: text), groups⟩ some =
          some ⟨between (some c) text, groups⟩ := by
        simp [hc]
      rw [run_starLazy_step hhere hitem (by simp)]
      refine ih (fun passed rest heq hpassed => ?_) (hgo [c] text rfl (by simpa using hc))
      exact hgo (c :: passed) rest (by rw [heq]; rfl) (List.forall_mem_cons.mpr ⟨hc, hpassed⟩)
    · exact run_starLazy_stop hhere (by simp [hc])

end Pattern
end Visualforce
