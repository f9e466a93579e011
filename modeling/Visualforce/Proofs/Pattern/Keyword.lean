import Mathlib.Data.List.Forall2
import Visualforce.Proofs.Markup.TagMatch
import Visualforce.Proofs.Pattern.Leads

/-! # Keywords and marks

A keyword is matched in any case. A pattern whose parts accept no mark stays before the first mark,
so where it leads is told from the first mark ahead; a run that goes on over marks can be left at
the last one.
-/
namespace Visualforce.Pattern
open Cursor

variable {κ : Type} {groups : List (κ × Span)} {before : Option Char} {rest : Text}
variable {goOn : Place κ → Option (Place κ)} {here there last : Place κ}
variable {first second item body pattern : Pattern κ} {accepts : Char → Bool}

theorem run_firstOf (patterns : List (Pattern κ)) :
    (firstOf patterns).run here goOn = patterns.findSome? fun pattern => pattern.run here goOn := by
  induction patterns with
  | nil => rfl
  | cons first others ih =>
    cases others with
    | nil =>
      rw [firstOf, List.findSome?_cons]
      cases first.run here goOn <;> rfl
    | cons second others =>
      change (alt first (firstOf (second :: others))).run here goOn = _
      rw [run_alt, ih]
      conv_rhs => rw [List.findSome?_cons]
      cases first.run here goOn <;> rfl

/-- When all other alternatives fail it does not matter where one stands. -/
theorem findSome?_eq {α β : Type} {f : α → Option β} {values : List α} {value : α}
    (hmem : value ∈ values)
    (h : ∀ other ∈ values, f other = f value ∨ f other = none) : values.findSome? f = f value := by
  induction values with
  | nil => cases hmem
  | cons other others ih =>
    obtain ⟨hother, hothers⟩ := List.forall_mem_cons.mp h
    rw [List.findSome?_cons]
    cases hfound : f other with
    | some found =>
      rw [hfound] at hother
      exact hother.resolve_right nofun
    | none =>
      rcases List.mem_cons.mp hmem with rfl | hmem
      · have hnone : others.findSome? f = none :=
          List.findSome?_eq_none_iff.mpr fun x hx => (hothers x hx).elim (·.trans hfound) id
        rw [hfound, hnone]
      · exact ih hmem hothers

/-- The characters of the second text are those of the first one up to case. -/
def SameUpToCase (name word : Text) : Prop :=
  List.Forall₂ (fun c d => Text.sameUpToCase c d) name word

instance (name word : Text) : Decidable (SameUpToCase name word) :=
  inferInstanceAs (Decidable (List.Forall₂ (fun c d => Text.sameUpToCase c d) name word))

/-- Lower-case letters. -/
def IsLowerName (name : Text) : Prop := ∀ c ∈ name, c.isLower

theorem toNat_lt_of_isLower {c : Char} (h : c.isLower) : c.toNat < 128 :=
  Text.toNat_lt_of_isAlphanum (Bool.or_eq_true_iff.mpr (.inl (Bool.or_eq_true_iff.mpr (.inr h))))

theorem toLower_of_isLower {c : Char} (h : c.isLower) : c.toLower = c := by
  exact Text.forall_ascii (fun c => c.isLower → c.toLower = c) (by decide) (toNat_lt_of_isLower h) h

theorem toNat_lt_of_toLower {c : Char} (h : c.toLower.toNat < 128) : c.toNat < 128 := by
  by_cases hupper : c.val ≥ 'A'.val ∧ c.val ≤ 'Z'.val
  · exact Nat.lt_of_le_of_lt (UInt32.le_iff_toNat_le.mp hupper.2) (by decide)
  · have hsame : c.toLower = c := dif_neg hupper
    rwa [hsame] at h

theorem sameUpToCase_iff {c d : Char} (hc : c.isLower) (hd : d.toNat < 128) :
    Text.sameUpToCase c d ↔ d.toLower = c := by
  constructor
  · intro h
    rw [← Markup.toLower_eq_of_sameUpToCase (toNat_lt_of_isLower hc) hd h, toLower_of_isLower hc]
  · rintro rfl
    rw [Text.sameUpToCase, Markup.foldKey_of_ascii (toNat_lt_of_isLower hc),
      Markup.foldKey_of_ascii hd, toLower_of_isLower hc, beq_self_eq_true]

/-- The characters beyond ASCII that agree up to case with a letter of ASCII. -/
theorem mem_of_lowerCode {n : Nat} (hn : 128 ≤ n)
    (h : Text.lowerCode n < 128 ∨ Text.lowerCode n ∈ [0x131, 0x17F]) :
    n ∈ [0x130, 0x131, 0x17F, 0x212A] := by
  have hruns : ∀ run ∈ Text.caseRuns, (run.first = 0x130 ∧ run.last = 0x130) ∨
      (run.first = 0x212A ∧ run.last = 0x212A) ∨ 128 ≤ run.first + run.shift ∧
        ∀ code ∈ [0x131, 0x17F], run.last + run.shift < code ∨ code < run.first + run.shift := by
    decide +kernel
  rw [Text.lowerCode, if_neg (by omega)] at h
  cases hfind : Text.caseRuns.find? fun run => run.first ≤ n && n ≤ run.last &&
    (n - run.first) % run.stride == 0 with
  | none =>
    simp only [hfind, List.mem_cons, List.not_mem_nil, or_false] at h ⊢
    omega
  | some run =>
    have hbounds := List.find?_some hfind
    simp only [Bool.and_eq_true, decide_eq_true_eq] at hbounds
    obtain ⟨⟨hfirst, hlast⟩, -⟩ := hbounds
    have hrun := hruns run (List.mem_of_find?_eq_some hfind)
    simp only [hfind, List.mem_cons, List.not_mem_nil, or_false, forall_eq_or_imp, forall_eq]
      at h hrun ⊢
    omega

theorem mem_of_foldKey {d : Char} (hd : 128 ≤ d.toNat) (h : Text.foldKey d < 128) :
    d.toNat ∈ [0x130, 0x131, 0x17F, 0x212A] := by
  have hshared : ∀ entry ∈ Text.sharedUpper, entry.2 < 128 → entry.1 ∈ [0x131, 0x17F] := by decide
  refine mem_of_lowerCode hd ?_
  by_cases hsmall : Text.lowerCode d.toNat < 128
  · exact .inl hsmall
  · rw [Text.foldKey, if_neg hsmall] at h
    cases hlookup : Text.sharedUpper.lookup (Text.lowerCode d.toNat) with
    | none =>
      rw [hlookup] at h
      exact .inl h
    | some key =>
      rw [hlookup] at h
      obtain ⟨first, last, hsplit, -⟩ := List.lookup_eq_some_iff.mp hlookup
      have hmem : (Text.lowerCode d.toNat, key) ∈ Text.sharedUpper :=
        hsplit ▸ List.mem_append_right first List.mem_cons_self
      exact .inr (hshared _ hmem h)

/-- Only three letters of ASCII have the key of a character beyond it. -/
theorem foldKey_of_not_ascii {d : Char} (hd : 128 ≤ d.toNat) : Text.foldKey d ∈ [0x69, 0x6B, 0x73] ∨
    128 ≤ Text.foldKey d := by
  by_cases hkey : Text.foldKey d < 128
  · have hall : ∀ code ∈ [0x130, 0x131, 0x17F, 0x212A], Text.foldKey (Char.ofNat code) ∈
      [0x69, 0x6B, 0x73] := by
      decide +kernel
    have hmem := hall d.toNat (mem_of_foldKey hd hkey)
    rw [Char.ofNat_toNat] at hmem
    exact .inl hmem
  · exact .inr (Nat.not_lt.mp hkey)

/-- Most letters agree up to case with characters of ASCII only. -/
theorem toNat_lt_of_sameUpToCase {c d : Char} (hc : c.isLower) (hne : c ∉ "iks".toList)
    (h : Text.sameUpToCase c d) :
    d.toNat < 128 := by
  by_contra hd
  have hascii := toNat_lt_of_isLower hc
  rw [Text.sameUpToCase, beq_iff_eq, Markup.foldKey_of_ascii hascii, toLower_of_isLower hc] at h
  have hkeys : ∀ n : Fin 128, n.val ∈ [0x69, 0x6B, 0x73] → Char.ofNat n ∈ "iks".toList := by decide
  rcases foldKey_of_not_ascii (Nat.not_lt.mp hd) with hkey | hkey
  · rw [← h] at hkey
    have hmem := hkeys ⟨c.toNat, hascii⟩ hkey
    simp only [Char.ofNat_toNat] at hmem
    exact hne hmem
  · omega

theorem isWord_of_sameUpToCase {c d : Char} (hc : c.isLower) (h : Text.sameUpToCase c d) :
    Text.isWord d := by
  by_cases hd : d.toNat < 128
  · have hlower : d.toLower.isLower := (sameUpToCase_iff hc hd).mp h ▸ hc
    exact Text.forall_ascii (fun d => d.toLower.isLower → Text.isWord d) (by decide +kernel)
      hd hlower
  · have hascii := toNat_lt_of_isLower hc
    have hall : ∀ code ∈ [0x130, 0x131, 0x17F, 0x212A], Text.isWord (Char.ofNat code) := by
      decide +kernel
    have hkey : Text.foldKey d < 128 := by
      rw [Text.sameUpToCase, beq_iff_eq, Markup.foldKey_of_ascii hascii, toLower_of_isLower hc] at h
      omega
    have hword := hall d.toNat (mem_of_foldKey (Nat.not_lt.mp hd) hkey)
    rwa [Char.ofNat_toNat] at hword

theorem isBlank_of_sameUpToCase {c d : Char} (hc : c.isLower) (h : Text.sameUpToCase c d) :
    Text.isBlank d = false :=
  Text.isBlank_of_isWord (isWord_of_sameUpToCase hc h)

theorem sameUpToCase_of_toLower {word : Text} (h : IsLowerName (word.map Char.toLower)) :
    SameUpToCase (word.map Char.toLower) word := by
  refine List.forall₂_map_left_iff.mpr (List.forall₂_same.mpr fun c hc => ?_)
  have hlower := h c.toLower (List.mem_map_of_mem hc)
  exact (sameUpToCase_iff hlower (toNat_lt_of_toLower (toNat_lt_of_isLower hlower))).mpr rfl

theorem toLower_of_sameUpToCase {name word : Text} (hname : IsLowerName name)
    (hword : ∀ c ∈ word, c.toNat < 128) (h : SameUpToCase name word) :
    word.map Char.toLower = name := by
  induction h with
  | nil => rfl
  | cons hc _ ih =>
    obtain ⟨hlower, hname⟩ := List.forall_mem_cons.mp hname
    obtain ⟨hascii, hword⟩ := List.forall_mem_cons.mp hword
    rw [List.map_cons, (sameUpToCase_iff hlower hascii).mp hc, ih hname hword]

theorem SameUpToCase.exists_of_mem {name word : Text} (h : SameUpToCase name word) {d : Char}
    (hd : d ∈ word) :
    ∃ c ∈ name, Text.sameUpToCase c d := by
  induction h with
  | nil => cases hd
  | cons hc _ ih =>
    rcases List.mem_cons.mp hd with rfl | hd
    · exact ⟨_, List.mem_cons_self, hc⟩
    · obtain ⟨c, hmem, hsame⟩ := ih hd
      exact ⟨c, .tail _ hmem, hsame⟩

theorem SameUpToCase.isWord {name word : Text} (h : SameUpToCase name word)
    (hname : IsLowerName name) :
    ∀ c ∈ word, Text.isWord c := by
  intro c hc
  obtain ⟨d, hd, hsame⟩ := h.exists_of_mem hc
  exact isWord_of_sameUpToCase (hname d hd) hsame

theorem run_caseless_of_sameUpToCase {name word : Text} (h : SameUpToCase name word) :
    (caseless name).run ⟨between before (word ++ rest), groups⟩ goOn =
      goOn ⟨between (behind before word) rest, groups⟩ := by
  induction h generalizing before with
  | nil => rfl
  | @cons c d name word hc _ ih =>
    have hcons : (caseless (c :: name) : Pattern κ) = Pattern.one (Text.sameUpToCase c) ++
      caseless name := rfl
    rw [hcons, List.cons_append, run_append, run_one_cons, if_pos hc, ih, behind_cons]

theorem Leads.caseless_inv {name : Text} (h : Leads (caseless name) here there) :
    ∃ word, here.cursor.rest = word ++ there.cursor.rest ∧ SameUpToCase name word := by
  induction name generalizing here with
  | nil =>
    cases h
    exact ⟨[], rfl, .nil⟩
  | cons c name ih =>
    have hcons : (caseless (c :: name) : Pattern κ) = Pattern.one (Text.sameUpToCase c) ++
      caseless name := rfl
    obtain ⟨middle, hone, hrest⟩ := leads_append.mp (hcons ▸ h)
    obtain ⟨d, hd, hsame, -⟩ := hone.one_inv
    obtain ⟨word, hword, hname⟩ := ih hrest
    exact ⟨d :: word, by rw [hd, hword, List.cons_append], .cons hsame hname⟩

theorem Leads.firstOf_inv {patterns : List (Pattern κ)} (h : Leads (firstOf patterns) here there) :
    ∃ pattern ∈ patterns, Leads pattern here there := by
  induction patterns with
  | nil =>
    cases h with
    | guard h => cases h
  | cons first others ih =>
    cases others with
    | nil => exact ⟨first, List.mem_cons_self, h⟩
    | cons second others =>
      cases h with
      | left _ h => exact ⟨first, List.mem_cons_self, h⟩
      | right _ h =>
        obtain ⟨pattern, hmem, hpattern⟩ := ih h
        exact ⟨pattern, .tail _ hmem, hpattern⟩

theorem skipAll_append {passed : Text} (hpassed : ∀ c ∈ passed, accepts c)
    (hrest : ∀ c ∈ rest.head?, accepts c = false) {n : Nat} (hn : passed.length ≤ n) :
    skipAll accepts n (between before (passed ++ rest)) = between (behind before passed) rest := by
  induction passed generalizing before n with
  | nil =>
    cases n with
    | zero => rfl
    | succ n =>
      cases rest with
      | nil => rfl
      | cons c rest => simp [skipAll, hrest c rfl]
  | cons c passed ih =>
    obtain ⟨n, rfl⟩ : ∃ m, n = m + 1 := ⟨n - 1, by rw [List.length_cons] at hn; omega⟩
    obtain ⟨hc, hpassed⟩ := List.forall_mem_cons.mp hpassed
    rw [List.length_cons] at hn
    simp only [skipAll, List.cons_append, next?_between_cons, hc, if_true, behind_cons]
    exact ih hpassed (by omega)

theorem Leads.sweep_inv (h : Leads (Pattern.sweep accepts) here there) :
    ∃ passed, here.cursor.rest = passed ++ there.cursor.rest ∧ (∀ c ∈ passed, accepts c) ∧
      ∀ c ∈ there.cursor.rest.head?, accepts c = false := by
  cases h
  have hhead : ∀ c ∈ (here.cursor.rest.dropWhile accepts).head?, accepts c = false := fun c =>
    Text.not_of_mem_head?_dropWhile
  have hpassed : ∀ c ∈ here.cursor.rest.takeWhile accepts, accepts c :=
    fun c => List.mem_takeWhile_imp
  have hlength : (here.cursor.rest.takeWhile accepts).length ≤ here.cursor.left := by
    rw [here.cursor.left_eq]
    exact (List.takeWhile_prefix _).length_le
  have hskip : skipAll accepts _ (between here.cursor.before _) = _ :=
    skipAll_append hpassed hhead hlength
  rw [List.takeWhile_append_dropWhile, ← eq_between] at hskip
  refine ⟨_, ?_, hpassed, ?_⟩
  · rw [hskip, between_rest, List.takeWhile_append_dropWhile]
  · rw [hskip]
    exact hhead

theorem run_sweep {passed : Text} (hpassed : ∀ c ∈ passed, accepts c)
    (hrest : ∀ c ∈ rest.head?, accepts c = false) :
    (sweep accepts).run ⟨between before (passed ++ rest), groups⟩ goOn =
      goOn ⟨between (behind before passed) rest, groups⟩ := by
  rw [run, skipAll_append hpassed hrest]
  simp

theorem run_star_mark {mark : Char} {passed : Text} (hpassed : ∀ c ∈ passed, accepts c)
    (hmark : accepts mark) (hlast : mark ∉ rest.takeWhile accepts)
    (hgo : goOn ⟨between (some mark) rest, groups⟩ = some last) :
    (star (one accepts)).run ⟨between before (passed ++ mark :: rest), groups⟩
      (fun there => (char mark).run there goOn) = some last := by
  induction passed generalizing before with
  | nil =>
    have hitem : (one accepts).run ⟨between before (mark :: rest), groups⟩ some =
        some ⟨between (some mark) rest, groups⟩ := by
      simp [hmark]
    have hnone : (star (one accepts)).run ⟨between (some mark) rest, groups⟩
        (fun there => (char mark).run there goOn) = none := by
      refine run_starOne_none rest fun more behind heq hmore => run_one_of_head? ?_
      intro c hc
      refine beq_false_of_ne ?_
      rintro rfl
      refine hlast ?_
      obtain ⟨behind, rfl⟩ : ∃ others, behind = c :: others := by
        cases behind with
        | nil => cases hc
        | cons d behind => exact ⟨behind, by rw [Option.some.inj hc]⟩
      rw [heq, List.takeWhile_append_of_pos hmore, List.takeWhile_cons_of_pos hmark]
      exact List.mem_append_right more List.mem_cons_self
    rw [List.nil_append, run_star_step hitem (by simp), hnone, Option.none_or]
    simpa [char] using hgo
  | cons c passed ih =>
    obtain ⟨hc, hpassed⟩ := List.forall_mem_cons.mp hpassed
    have hitem : (one accepts).run ⟨between before (c :: (passed ++ mark :: rest)), groups⟩ some =
        some ⟨between (some c) (passed ++ mark :: rest), groups⟩ := by
      simp [hc]
    exact run_star_step_of_some hitem (by simp) (ih hpassed)

/-- Every way through the pattern passes characters of the class only. -/
def PassesOnly (accepts : Char → Bool) (pattern : Pattern κ) : Prop :=
  ∀ ⦃here there : Place κ⦄, Leads pattern here there →
    ∃ passed, here.cursor.rest = passed ++ there.cursor.rest ∧ ∀ c ∈ passed, accepts c

namespace PassesOnly

theorem append (hfirst : PassesOnly accepts first) (hsecond : PassesOnly accepts second) :
    PassesOnly accepts (first ++ second) := by
  intro here there h
  obtain ⟨middle, hleads, hleads'⟩ := leads_append.mp h
  obtain ⟨passed, hrest, hpassed⟩ := hfirst hleads
  obtain ⟨more, hrest', hmore⟩ := hsecond hleads'
  exact ⟨passed ++ more, by
    rw [hrest, hrest', List.append_assoc], List.forall_mem_append.mpr ⟨hpassed, hmore⟩⟩

theorem empty : PassesOnly accepts (empty : Pattern κ) := by
  rintro here there ⟨⟩
  exact ⟨[], rfl, List.forall_mem_nil _⟩

theorem one {passes : Char → Bool} (h : ∀ c, passes c → accepts c) :
    PassesOnly accepts (one passes : Pattern κ) := by
  intro here there hleads
  obtain ⟨c, hrest, hc, -⟩ := hleads.one_inv
  exact ⟨[c], hrest, List.forall_mem_singleton.mpr (h c hc)⟩

theorem alt (hfirst : PassesOnly accepts first) (hsecond : PassesOnly accepts second) :
    PassesOnly accepts (alt first second) := by
  intro here there h
  cases h with
  | left _ h => exact hfirst h
  | right _ h => exact hsecond h

theorem maybe (h : PassesOnly accepts item) : PassesOnly accepts (maybe item) := h.alt empty

theorem star (h : PassesOnly accepts item) : PassesOnly accepts (star item) := by
  intro here there hleads
  generalize hpattern : Pattern.star item = pattern at hleads
  induction hleads with
  | stop => exact ⟨[], rfl, List.forall_mem_nil _⟩
  | step hitem _ _ ih =>
    obtain ⟨rfl, rfl⟩ := many.inj hpattern
    obtain ⟨passed, hrest, hpassed⟩ := h hitem
    obtain ⟨more, hrest', hmore⟩ := ih rfl
    exact ⟨passed ++ more, by
      rw [hrest, hrest', List.append_assoc], List.forall_mem_append.mpr ⟨hpassed, hmore⟩⟩
  | _ => cases hpattern

theorem plus (h : PassesOnly accepts item) : PassesOnly accepts (plus item) := h.append h.star

theorem group (h : PassesOnly accepts body) (key : κ) : PassesOnly accepts (group key body) := by
  intro here there hleads
  obtain ⟨middle, hbody, rfl⟩ := leads_group.mp hleads
  obtain ⟨passed, hrest, hpassed⟩ := h hbody
  exact ⟨passed, hrest, hpassed⟩

theorem forall_mem_spanTo (h : PassesOnly accepts pattern) (hleads : Leads pattern here there) :
    ∀ c ∈ (here.cursor.spanTo there.cursor).text, accepts c := by
  obtain ⟨passed, hrest, hpassed⟩ := h hleads
  rwa [Cursor.spanTo_text_of_rest hrest]

theorem exactly {piece : Text} (h : ∀ c ∈ piece, accepts c) :
    PassesOnly accepts (exactly piece : Pattern κ) := by
  induction piece with
  | nil => exact empty
  | cons c piece ih =>
    obtain ⟨hc, hpiece⟩ := List.forall_mem_cons.mp h
    exact append (one fun d hd => eq_of_beq hd ▸ hc) (ih hpiece)

theorem caseless {name : Text} (h : ∀ c ∈ name, ∀ d, Text.sameUpToCase c d → accepts d) :
    PassesOnly accepts (caseless name : Pattern κ) := by
  induction name with
  | nil => exact empty
  | cons c name ih =>
    obtain ⟨hc, hname⟩ := List.forall_mem_cons.mp h
    exact append (one hc) (ih hname)

theorem firstOf {patterns : List (Pattern κ)}
    (h : ∀ pattern ∈ patterns, PassesOnly accepts pattern) :
    PassesOnly accepts (firstOf patterns) := by
  intro here there hleads
  obtain ⟨pattern, hmem, hpattern⟩ := hleads.firstOf_inv
  exact h pattern hmem hpattern

end PassesOnly

end Visualforce.Pattern
