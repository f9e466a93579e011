import Mathlib.Data.List.Forall2
import Visualforce.Proofs.Pattern.LineEnds

/-! # Scans and line ends

A pattern that keeps step and does not match inside a line end has the same matches in a text and in
the text with its line ends unified. What they capture is unified, and so is the text in which they
are replaced.
-/
namespace Visualforce.Pattern
open Cursor Digest

variable {κ : Type} {text rest : Text} {before : Option Char} {c : Char}
variable {pattern : Pattern κ} {here there : Cursor} {hit hit' : Hit κ}

theorem UnifiedGroups.group [BEq κ] (h : UnifiedGroups hit.groups hit'.groups) (key : κ) :
    hit'.group key = unifyLineEnds (hit.group key) := by
  rw [Hit.group, Hit.group, Hit.group?, Hit.group?, h.lookup key]
  cases (hit.groups.lookup key).map Span.text with
  | none => rfl
  | some found => rfl

structure UnifiedHit (text : Text) (hit hit' : Hit κ) : Prop where
  start : SamePlace text hit.start hit'.start
  stop : SamePlace text hit.stop hit'.stop
  groups : UnifiedGroups hit.groups hit'.groups

namespace UnifiedHit

theorem text_eq (h : UnifiedHit text hit hit') : hit'.text = unifyLineEnds hit.text :=
  h.start.spanTo_text h.stop

theorem group? [BEq κ] (h : UnifiedHit text hit hit') (key : κ) :
    hit'.group? key = (hit.group? key).map unifyLineEnds :=
  h.groups.lookup key

theorem group [BEq κ] (h : UnifiedHit text hit hit') (key : κ) :
    hit'.group key = unifyLineEnds (hit.group key) :=
  h.groups.group key

end UnifiedHit

theorem rel_map {α β γ δ : Type} {related : α → β → Prop} {results : γ → δ → Prop}
    {first : Option α} {second : Option β} {f : α → γ} {g : β → δ}
    (h : Option.Rel related first second) (himp : ∀ a b, related a b → results (f a) (g b)) :
    Option.Rel results (first.map f) (second.map g) := by
  cases h with
  | none => exact .none
  | some hab => exact .some (himp _ _ hab)

/-- Matches of the pattern do not depend on how the lines of a text end. -/
structure IgnoresLineEnds (pattern : Pattern κ) : Prop where
  follows : ∀ {text}, Follows text (InStep text) (pattern.run · some) (pattern.run · some)
  blocks : Blocks pattern

theorem Keeps.follows (h : Keeps pattern) :
    Follows text (InStep text) (pattern.run · some) (pattern.run · some) :=
  h.run fun hlast => .some hlast

theorem Keeps.ignores (h : Keeps pattern) (hblocks : Blocks pattern) : IgnoresLineEnds pattern :=
  ⟨h.follows, hblocks⟩

theorem rel_matchAt
    (h : Follows text (InStep text) (pattern.run · some) (pattern.run · some))
    (hhere : SamePlace text here there) :
    Option.Rel (UnifiedHit text) (pattern.matchAt here) (pattern.matchAt there) := by
  have hplace : InStep text (⟨here, []⟩ : Place κ) ⟨there, []⟩ := ⟨hhere, .nil⟩
  exact rel_map (h hplace) fun last last' hlast => ⟨hhere, hlast.cursor, hlast.groups⟩

theorem Blocks.matchAt (h : Blocks pattern) (hhere : InLineEnd here) :
    pattern.matchAt here = none := by
  have hrun : pattern.run ⟨here, []⟩ some = none := h.run some hhere
  rw [Pattern.matchAt, hrun]
  rfl

theorem Keeps.notAhead {ahead : Pattern Unit} (h : Keeps ahead) :
    Keeps (guard fun here => (ahead.matchAt here).isNone : Pattern κ) := by
  refine keeps_guard fun {text here there} hhere => ?_
  obtain ⟨hnone, hnone'⟩ | ⟨hit, hit', hsome, hsome', -⟩ := rel_cases (rel_matchAt h.follows hhere)
  · rw [hnone, hnone']
  · rw [hsome, hsome']
    rfl

section Search

theorem searchFrom_eq : pattern.searchFrom here = (pattern.matchAt here).or
    (here.next?.bind fun entry => pattern.searchFrom entry.2) := by
  rw [eq_between here]
  cases here.rest with
  | nil =>
    rw [searchFrom, between_left, List.length_nil, searchWithin, next?_between_nil]
    exact Option.or_none.symm
  | cons c rest =>
    rw [searchFrom, between_left, List.length_cons, searchWithin, next?_between_cons]
    cases pattern.matchAt (between here.before (c :: rest)) with
    | none => rfl
    | some hit => rfl

theorem IgnoresLineEnds.rel_searchFrom (h : IgnoresLineEnds pattern)
    (hhere : SamePlace text here there) :
    Option.Rel (UnifiedHit text) (pattern.searchFrom here) (pattern.searchFrom there) := by
  induction hleft : here.left using Nat.strong_induction_on generalizing here there with
  | _ n ih =>
    subst hleft
    have hmatch := rel_matchAt h.follows hhere
    cases hhere.ahead with
    | nothing hhere hthere =>
      subst hhere hthere
      rw [searchFrom_eq, searchFrom_eq]
      exact rel_or hmatch .none
    | char hhere hthere hsingle hnext =>
      subst hhere hthere
      rw [searchFrom_eq, searchFrom_eq]
      exact rel_or hmatch (ih _ (Nat.lt_succ_self _) hnext rfl)
    | @lineEnd before before' rest hhere hthere hnext =>
      subst hhere hthere
      -- Inside a line end nothing matches, so the search of the longer text takes one step more.
      have hmiddle : pattern.matchAt (between (some '\r') ('\n' :: rest)) = none :=
        h.blocks.matchAt ⟨rest, rfl⟩
      rw [searchFrom_eq, searchFrom_eq]
      refine rel_or hmatch ?_
      rw [next?_between_cons, Option.bind_some, searchFrom_eq, hmiddle, Option.none_or]
      exact ih _ (Nat.lt_succ_of_lt (Nat.lt_succ_self _)) hnext rfl

theorem search_unifyLineEnds (h : IgnoresLineEnds pattern) (text : Text) :
    Option.Rel (UnifiedHit text) (pattern.search text) (pattern.search (unifyLineEnds text)) :=
  h.rel_searchFrom (samePlace_start text)

theorem occursIn_unifyLineEnds (h : IgnoresLineEnds pattern) (text : Text) :
    pattern.occursIn (unifyLineEnds text) = pattern.occursIn text := by
  rw [occursIn, occursIn]
  obtain ⟨hnone, hnone'⟩ | ⟨hit, hit', hsome, hsome', -⟩ :=
    rel_cases (search_unifyLineEnds h text)
  · rw [hnone, hnone']
  · rw [hsome, hsome']
    rfl

end Search

/-- More steps than characters ahead change nothing. -/
theorem piecesFrom_enough {n : Nat} (hn : here.left ≤ n) (found : List (Piece κ)) :
    pattern.piecesFrom n here found = pattern.piecesFrom here.left here found := by
  induction hleft : here.left using Nat.strong_induction_on generalizing here n found with
  | _ m ih =>
    subst hleft
    cases hnext : here.next? with
    | none =>
      have hzero : here.left = 0 := next?_eq_none_iff.mp hnext
      rw [hzero]
      cases n with
      | zero => rfl
      | succ n => rw [piecesFrom, piecesFrom, hnext]
    | some entry =>
      obtain ⟨c, next⟩ := entry
      have hlt := left_lt_of_next? hnext
      obtain ⟨n, rfl⟩ : ∃ k, n = k + 1 := ⟨n - 1, by omega⟩
      obtain ⟨left, hleft⟩ : ∃ k, here.left = k + 1 := ⟨here.left - 1, by omega⟩
      have hsame (place : Cursor) (hplace : place.left < here.left) (found : List (Piece κ)) :
          pattern.piecesFrom n place found = pattern.piecesFrom left place found := by
        rw [ih _ hplace (by omega) found rfl, ih _ hplace (n := left) (by omega) found rfl]
      rw [hleft, piecesFrom, piecesFrom, hnext]
      simp only
      cases pattern.matchAt here with
      | none => exact hsame _ hlt _
      | some hit =>
        simp only
        rw [hleft]
        split_ifs with hstop
        · exact hsame _ (by omega) _
        · exact hsame _ hlt _

/-- The pieces from a place on to the end of the text. -/
def piecesAhead (pattern : Pattern κ) (here : Cursor) : List (Piece κ) :=
  pattern.piecesFrom here.left here []

theorem piecesAhead_cons : pattern.piecesAhead (between before (c :: rest)) =
    match pattern.matchAt (between before (c :: rest)) with
    | some hit =>
      if hit.stop.left < (between before (c :: rest)).left then
        .matched hit :: pattern.piecesAhead hit.stop
      else .plain c :: pattern.piecesAhead (between (some c) rest)
    | none => .plain c :: pattern.piecesAhead (between (some c) rest) := by
  have hfrom : pattern.piecesAhead (between before (c :: rest)) =
      pattern.piecesFrom (rest.length + 1) (between before (c :: rest)) [] := rfl
  rw [hfrom, piecesFrom, next?_between_cons]
  simp only
  cases pattern.matchAt (between before (c :: rest)) with
  | none => exact piecesFrom_reverse _ _ _
  | some hit =>
    simp only
    by_cases hlt : hit.stop.left < (between before (c :: rest)).left
    · rw [if_pos hlt, if_pos hlt, piecesFrom_reverse, piecesFrom_enough (Nat.le_of_lt_succ hlt)]
      rfl
    · rw [if_neg hlt, if_neg hlt, piecesFrom_reverse]
      rfl

theorem piecesAhead_of_matchAt_none
    (h : pattern.matchAt (between before (c :: rest)) = none) :
    pattern.piecesAhead (between before (c :: rest)) =
      .plain c :: pattern.piecesAhead (between (some c) rest) := by
  rw [piecesAhead_cons, h]

theorem piecesAhead_eq_plain {more : List (Piece κ)}
    (h : pattern.piecesAhead (between before rest) = .plain c :: more) : rest.head? = some c := by
  cases rest with
  | nil => cases h
  | cons d rest =>
    rw [piecesAhead_cons] at h
    split at h
    · split_ifs at h
      · cases h
      · cases h
        rfl
    · cases h
      rfl

/-- The pieces of a text and those of the text with its line ends unified. A carriage return that is
a line end by itself is not followed by a line feed. -/
inductive UnifiedPieces (pattern : Pattern κ) (text : Text) :
    List (Piece κ) → List (Piece κ) → Prop where
  | nil : UnifiedPieces pattern text [] []
  | char {c : Char} {rest rest' : List (Piece κ)}
      (hsingle : c = '\r' → ∀ more, rest ≠ .plain '\n' :: more)
      (hrest : UnifiedPieces pattern text rest rest') :
      UnifiedPieces pattern text (.plain c :: rest) (.plain (unified c) :: rest')
  | lineEnd {rest rest' : List (Piece κ)} (hrest : UnifiedPieces pattern text rest rest') :
      UnifiedPieces pattern text (.plain '\r' :: .plain '\n' :: rest) (.plain '\n' :: rest')
  | matched {hit hit' : Hit κ} {rest rest' : List (Piece κ)}
      (hmatch : pattern.matchAt hit.start = some hit) (hhit : UnifiedHit text hit hit')
      (hrest : UnifiedPieces pattern text rest rest') :
      UnifiedPieces pattern text (.matched hit :: rest) (.matched hit' :: rest')

theorem start_of_matchAt (h : pattern.matchAt here = some hit) : hit.start = here := by
  rw [matchAt, Option.map_eq_some_iff] at h
  obtain ⟨last, -, rfl⟩ := h
  rfl

theorem IgnoresLineEnds.unifiedPieces (h : IgnoresLineEnds pattern)
    (hhere : SamePlace text here there) :
    UnifiedPieces pattern text (pattern.piecesAhead here) (pattern.piecesAhead there) := by
  induction hleft : here.left using Nat.strong_induction_on generalizing here there with
  | _ n ih =>
    subst hleft
    have hmatch := rel_matchAt h.follows hhere
    -- Matches agree by the induction; the cases differ in the character that is passed over.
    have hplain {c d : Char} {rest rest' : Text} {before before' : Option Char}
        (heq : here = between before (c :: rest)) (heq' : there = between before' (d :: rest'))
        (hchar : UnifiedPieces pattern text
          (.plain c :: pattern.piecesAhead (between (some c) rest))
          (.plain d :: pattern.piecesAhead (between (some d) rest'))) :
        UnifiedPieces pattern text (pattern.piecesAhead here) (pattern.piecesAhead there) := by
      subst heq heq'
      rw [piecesAhead_cons, piecesAhead_cons]
      obtain ⟨hnone, hnone'⟩ | ⟨hit, hit', hsome, hsome', hhit⟩ := rel_cases hmatch
      · rw [hnone, hnone']
        exact hchar
      · have hdecide := hhere.left_lt_iff hhit.stop
        simp only [hsome, hsome']
        by_cases hlt : hit.stop.left < (between before (c :: rest)).left
        · rw [if_pos hlt, if_pos (hdecide.mp hlt)]
          exact .matched (start_of_matchAt hsome ▸ hsome) hhit (ih _ hlt hhit.stop rfl)
        · rw [if_neg hlt, if_neg (mt hdecide.mpr hlt)]
          exact hchar
    cases hhere.ahead with
    | nothing heq heq' =>
      subst heq heq'
      exact .nil
    | @char before before' c rest heq heq' hsingle hnext =>
      refine hplain heq heq' (.char ?_ (ih _ (heq ▸ Nat.lt_succ_self _) hnext rfl))
      rintro rfl more hmore
      exact hsingle ⟨rfl, piecesAhead_eq_plain hmore⟩
    | @lineEnd before before' rest heq heq' hnext =>
      have hmiddle : pattern.matchAt (between (some '\r') ('\n' :: rest)) = none :=
        h.blocks.matchAt ⟨rest, rfl⟩
      refine hplain heq heq' ?_
      rw [piecesAhead_of_matchAt_none hmiddle]
      exact .lineEnd (ih _ (heq ▸ Nat.lt_succ_of_lt (Nat.lt_succ_self _)) hnext rfl)

theorem pieces_unifyLineEnds (h : IgnoresLineEnds pattern) (text : Text) :
    UnifiedPieces pattern text (pattern.pieces text) (pattern.pieces (unifyLineEnds text)) :=
  h.unifiedPieces (samePlace_start text)

theorem UnifiedPieces.hits {found found' : List (Piece κ)}
    (h : UnifiedPieces pattern text found found') :
    List.Forall₂ (UnifiedHit text) (found.filterMap Piece.hit?) (found'.filterMap Piece.hit?) := by
  induction h with
  | nil => exact .nil
  | char _ _ ih => exact ih
  | lineEnd _ ih => exact ih
  | matched _ hhit _ ih => exact .cons hhit ih

theorem hits_unifyLineEnds (h : IgnoresLineEnds pattern) (text : Text) :
    List.Forall₂ (UnifiedHit text) (pattern.hits text) (pattern.hits (unifyLineEnds text)) :=
  (pieces_unifyLineEnds h text).hits

/-- Each hit is a match of the pattern. -/
theorem hits_unifyLineEnds_of_match (h : IgnoresLineEnds pattern) (text : Text) :
    List.Forall₂ (fun hit hit' => pattern.matchAt hit.start = some hit ∧ UnifiedHit text hit hit')
      (pattern.hits text) (pattern.hits (unifyLineEnds text)) := by
  refine (List.forall₂_and_left _ _).mpr ⟨fun hit hhit => ?_, hits_unifyLineEnds h text⟩
  obtain ⟨there, -, hmatch⟩ := exists_matchAt_of_mem_hits hhit
  rwa [← start_of_matchAt hmatch] at hmatch

theorem map_hits_unifyLineEnds {α β : Type} {view : Hit κ → α} {view' : Hit κ → β} {change : α → β}
    (h : IgnoresLineEnds pattern) (text : Text)
    (hview : ∀ {hit hit'}, UnifiedHit text hit hit' → view' hit' = change (view hit)) :
    (pattern.hits (unifyLineEnds text)).map view' = ((pattern.hits text).map view).map change := by
  have hhits := hits_unifyLineEnds h text
  generalize pattern.hits text = hits at hhits ⊢
  generalize pattern.hits (unifyLineEnds text) = hits' at hhits ⊢
  induction hhits with
  | nil => rfl
  | cons hhit _ ih => rw [List.map_cons, List.map_cons, List.map_cons, hview hhit, ih]

theorem findAll_unifyLineEnds [BEq κ] (h : IgnoresLineEnds pattern) (key : κ) (text : Text) :
    pattern.findAll key (unifyLineEnds text) = (pattern.findAll key text).map unifyLineEnds :=
  map_hits_unifyLineEnds h text fun hhit => hhit.group key

theorem passesOnly_one_calm {accepts : Char → Bool} (hreturn : accepts '\r' = false)
    (hfeed : accepts '\n' = false) : PassesOnly (!isLineEnd ·) (one accepts : Pattern κ) :=
  PassesOnly.one fun c hc => by
    rw [Digest.isLineEnd_eq_false hreturn hfeed hc]
    rfl

theorem passesOnly_caseless_calm {piece : Text} (h : ∀ c ∈ piece, isLineEnd c = false) :
    PassesOnly (!isLineEnd ·) (caseless piece : Pattern κ) :=
  PassesOnly.caseless fun c hc d hd => by
    obtain ⟨hreturn, hfeed⟩ := sameUpToCase_lineEnd (h c hc)
    rw [Digest.isLineEnd_eq_false hreturn hfeed hd]
    rfl

theorem PassesOnly.calm (h : PassesOnly (!isLineEnd ·) pattern) {here there : Place κ}
    (hleads : Leads pattern here there) :
    ∀ c ∈ (here.cursor.spanTo there.cursor).text, isLineEnd c = false :=
  fun c hc => (Bool.not_eq_true' _).mp (h.forall_mem_spanTo hleads c hc)

/-- A group that captures no line ends captures the same in both texts. -/
theorem unifyLineEnds_group [BEq κ] [LawfulBEq κ] {key : κ}
    (h : Captures (fun other found => other = key → ∀ c ∈ found, isLineEnd c = false) pattern)
    (hhit : hit ∈ pattern.hits text) : unifyLineEnds (hit.group key) = hit.group key := by
  obtain ⟨there, -, hmatch⟩ := exists_matchAt_of_mem_hits hhit
  refine unifyLineEnds_of_forall ?_
  rcases h.group hmatch key with hempty | hgroup
  · rw [hempty]
    exact List.forall_mem_nil _
  · exact hgroup rfl

theorem findAll_unifyLineEnds_of_captures [BEq κ] [LawfulBEq κ] {key : κ}
    (h : IgnoresLineEnds pattern)
    (hcaptures : Captures (fun other found => other = key → ∀ c ∈ found, isLineEnd c = false)
      pattern)
    (text : Text) : pattern.findAll key (unifyLineEnds text) = pattern.findAll key text := by
  rw [findAll_unifyLineEnds h, findAll, List.map_map]
  exact List.map_congr_left fun hit hhit => unifyLineEnds_group hcaptures hhit

section Behind

/-- The matches from a place on. -/
def hitsAhead (pattern : Pattern κ) (here : Cursor) : List (Hit κ) :=
  (pattern.piecesAhead here).filterMap Piece.hit?

variable {ahead : Pattern κ}

/-- The match goes on behind one character. -/
theorem hitsAhead_cons
    (hpattern : ∀ place, pattern.run place some = (one accepts).run place (ahead.run · some)) :
    pattern.hitsAhead (between before (c :: rest)) =
      match if accepts c then ahead.run ⟨between (some c) rest, []⟩ some else none with
      | some last => ⟨between before (c :: rest), last.cursor, last.groups⟩ ::
          pattern.hitsAhead last.cursor
      | none => pattern.hitsAhead (between (some c) rest) := by
  rw [hitsAhead, piecesAhead_cons, Pattern.matchAt, hpattern, run_one_cons]
  split_ifs
  · cases hrun : ahead.run ⟨between (some c) rest, []⟩ some with
    | none => rfl
    | some last =>
      have hlt : last.cursor.left < (between before (c :: rest)).left := by
        obtain ⟨there, hleads, hthere⟩ := exists_leads hrun
        obtain rfl := Option.some.inj hthere
        rw [Cursor.left_eq, between_left, List.length_cons]
        exact Nat.lt_succ_of_le hleads.rest_suffix.length_le
      simp only [Option.map_some, if_pos hlt]
      rfl
  · rfl

/-- Of a match that begins with a line end only what it captures is unified. -/
theorem hitsAhead_unified
    (hpattern : ∀ place, pattern.run place some = (one accepts).run place (ahead.run · some))
    (haccepts : accepts '\r' = accepts '\n') (h : Keeps ahead) (hblocks : Blocks ahead)
    (hhere : SamePlace text here there) :
    List.Forall₂ (fun hit hit' => UnifiedGroups hit.groups hit'.groups)
      (pattern.hitsAhead here) (pattern.hitsAhead there) := by
  induction hleft : here.left using Nat.strong_induction_on generalizing here there with
  | _ n ih =>
    subst hleft
    have hstep {before before' : Option Char} {c d : Char} {rest rest' : Text}
        (hlt : rest.length < here.left) (hsame : accepts d = accepts c)
        (hnext : SamePlace text (between (some c) rest) (between (some d) rest')) :
        List.Forall₂ (fun hit hit' => UnifiedGroups hit.groups hit'.groups)
          (pattern.hitsAhead (between before (c :: rest)))
          (pattern.hitsAhead (between before' (d :: rest'))) := by
      have hplace : InStep text (⟨between (some c) rest, []⟩ : Place κ)
          ⟨between (some d) rest', []⟩ := ⟨hnext, .nil⟩
      have hrun : Option.Rel (InStep text) (ahead.run ⟨between (some c) rest, []⟩ some)
          (ahead.run ⟨between (some d) rest', []⟩ some) := h.run (fun hlast => .some hlast) hplace
      rw [hitsAhead_cons hpattern, hitsAhead_cons hpattern, hsame]
      split_ifs
      · obtain ⟨hnone, hnone'⟩ | ⟨last, last', hsome, hsome', hlast⟩ := rel_cases hrun
        · rw [hnone, hnone']
          exact ih _ hlt hnext rfl
        · rw [hsome, hsome']
          refine .cons hlast.groups (ih _ ?_ hlast.cursor rfl)
          obtain ⟨there, hleads, hthere⟩ := exists_leads hsome
          obtain rfl := Option.some.inj hthere
          rw [Cursor.left_eq]
          exact Nat.lt_of_le_of_lt hleads.rest_suffix.length_le hlt
      · exact ih _ hlt hnext rfl
    cases hhere.ahead with
    | nothing heq heq' =>
      subst heq heq'
      exact .nil
    | char heq heq' hsingle hnext =>
      subst heq heq'
      exact hstep (Nat.lt_succ_self _) (apply_unified haccepts _) hnext
    | @lineEnd before before' rest heq heq' hnext =>
      subst heq heq'
      have hmiddle : ahead.run ⟨between (some '\r') ('\n' :: rest), []⟩ some = none :=
        hblocks.run some ⟨rest, rfl⟩
      rw [hitsAhead_cons hpattern, hmiddle, ite_self]
      exact hstep (Nat.lt_succ_of_lt (Nat.lt_succ_self _)) rfl hnext

theorem findAll_unifyLineEnds_behind [BEq κ]
    (hpattern : ∀ place, pattern.run place some = (one accepts).run place (ahead.run · some))
    (haccepts : accepts '\r' = accepts '\n') (h : Keeps ahead) (hblocks : Blocks ahead) (key : κ)
    (text : Text) :
    pattern.findAll key (unifyLineEnds text) = (pattern.findAll key text).map unifyLineEnds := by
  have hhits := hitsAhead_unified hpattern haccepts h hblocks (samePlace_start text)
  have heq (text : Text) : pattern.findAll key text =
      (pattern.hitsAhead (start text)).map (·.group key) := rfl
  rw [heq, heq]
  generalize pattern.hitsAhead (start text) = hits at hhits ⊢
  generalize pattern.hitsAhead (start (unifyLineEnds text)) = hits' at hhits ⊢
  induction hhits with
  | nil => rfl
  | cons hgroups _ ih => rw [List.map_cons, List.map_cons, List.map_cons, hgroups.group, ih]

end Behind

/-- What a match is replaced by neither begins with a line feed nor ends with a carriage return. -/
structure IsClosed (text : Text) : Prop where
  nonempty : text ≠ []
  first : text.head? ≠ some '\n'
  last : text.getLast? ≠ some '\r'

theorem IsClosed.between {first last : Text} (hfirst : IsClosed first) (hlast : IsClosed last)
    (middle : Text) : IsClosed (first ++ (middle ++ last)) := by
  refine ⟨List.append_ne_nil_of_left_ne_nil hfirst.nonempty _, ?_, ?_⟩
  · rw [List.head?_append_of_ne_nil _ hfirst.nonempty]
    exact hfirst.first
  · rw [← List.append_assoc, List.getLast?_append_of_ne_nil _ hlast.nonempty]
    exact hlast.last

theorem IsClosed.append {first second : Text} (hfirst : first = [] ∨ IsClosed first)
    (hsecond : second = [] ∨ IsClosed second) (hne : first ++ second ≠ []) :
    IsClosed (first ++ second) := by
  rcases hfirst with rfl | hfirst
  · exact hsecond.resolve_left hne
  · rcases hsecond with rfl | hsecond
    · rwa [List.append_nil]
    · exact hfirst.between hsecond []

theorem replace_unifyLineEnds {write write' : Hit κ → Text} (h : IgnoresLineEnds pattern)
    (text : Text)
    (hwrite : ∀ {hit hit'}, pattern.matchAt hit.start = some hit → UnifiedHit text hit hit' →
      write' hit' = unifyLineEnds (write hit) ∧ IsClosed (write hit)) :
    pattern.replace write' (unifyLineEnds text) = unifyLineEnds (pattern.replace write text) := by
  have hpieces := pieces_unifyLineEnds h text
  rw [replace_eq, replace_eq]
  generalize pattern.pieces text = found at hpieces ⊢
  generalize pattern.pieces (unifyLineEnds text) = found' at hpieces ⊢
  induction hpieces with
  | nil => rfl
  | @char c rest rest' hsingle hrest ih =>
    have hc : ¬(c = '\r' ∧ (rest.flatMap (written write)).head? = some '\n') := by
      rintro ⟨rfl, hhead⟩
      cases hrest with
      | nil => cases hhead
      | char _ _ =>
        cases hhead
        exact hsingle rfl _ rfl
      | lineEnd _ => cases hhead
      | matched hmatch hhit _ =>
        obtain ⟨-, hclosed⟩ := hwrite hmatch hhit
        rw [List.flatMap_cons, written, List.head?_append_of_ne_nil _ hclosed.nonempty] at hhead
        exact hclosed.first hhead
    rw [List.flatMap_cons, List.flatMap_cons, ih]
    exact (unifyLineEnds_single hc).symm
  | lineEnd _ ih =>
    rw [List.flatMap_cons, List.flatMap_cons, List.flatMap_cons, ih]
    exact unifyLineEnds_return_feed.symm
  | matched hmatch hhit _ ih =>
    obtain ⟨heq, hclosed⟩ := hwrite hmatch hhit
    rw [List.flatMap_cons, List.flatMap_cons, ih, written, written, heq, unifyLineEnds_append]
    exact fun hmeet => hclosed.last hmeet.1

/-- Matches stand between a carriage return and a line feed, which meet when they are left out. -/
def PartsLineEnd (found : List (Piece κ)) : Prop :=
  ∃ hits : List (Hit κ), hits ≠ [] ∧ .plain '\r' :: (hits.map .matched ++ [.plain '\n']) <:+: found

theorem PartsLineEnd.of_suffix {found whole : List (Piece κ)} (h : PartsLineEnd found)
    (hsuffix : found <:+ whole) : PartsLineEnd whole := by
  obtain ⟨hits, hne, hinfix⟩ := h
  exact ⟨hits, hne, hinfix.trans hsuffix.isInfix⟩

theorem exists_hits_of_head? {found : List (Piece κ)}
    (h : (found.flatMap (written fun _ => [])).head? = some c) :
    ∃ (hits : List (Hit κ)) (more : List (Piece κ)),
      found = hits.map .matched ++ .plain c :: more := by
  induction found with
  | nil => cases h
  | cons piece found ih =>
    cases piece with
    | plain d =>
      cases h
      exact ⟨[], found, rfl⟩
    | matched hit =>
      obtain ⟨hits, more, rfl⟩ := ih h
      exact ⟨hit :: hits, more, rfl⟩

/-- The matches are left out of both texts alike. -/
theorem erase_unifyLineEnds (h : IgnoresLineEnds pattern)
    (hwhole : ¬PartsLineEnd (pattern.pieces text)) :
    pattern.replace (fun _ => []) (unifyLineEnds text) =
      unifyLineEnds (pattern.replace (fun _ => []) text) := by
  have hpieces := pieces_unifyLineEnds h text
  rw [replace_eq, replace_eq]
  generalize pattern.pieces text = found at hpieces hwhole ⊢
  generalize pattern.pieces (unifyLineEnds text) = found' at hpieces ⊢
  induction hpieces with
  | nil => rfl
  | @char c rest rest' hsingle hrest ih =>
    have hc : ¬(c = '\r' ∧ (rest.flatMap (written fun _ => [])).head? = some '\n') := by
      rintro ⟨rfl, hhead⟩
      obtain ⟨hits, more, rfl⟩ := exists_hits_of_head? hhead
      refine hwhole ⟨hits, ?_, [], more, by simp⟩
      rintro rfl
      exact hsingle rfl more rfl
    rw [List.flatMap_cons, List.flatMap_cons, ih (mt (·.of_suffix (List.suffix_cons _ _)) hwhole)]
    exact (unifyLineEnds_single hc).symm
  | @lineEnd rest rest' _ ih =>
    have hsuffix : rest <:+ .plain '\r' :: .plain '\n' :: rest := ⟨[_, _], rfl⟩
    rw [List.flatMap_cons, List.flatMap_cons, List.flatMap_cons,
      ih (mt (·.of_suffix hsuffix) hwhole)]
    exact unifyLineEnds_return_feed.symm
  | matched _ _ _ ih => exact ih (mt (·.of_suffix (List.suffix_cons _ _)) hwhole)

section Ends
variable {first second : Pattern κ} {opening closing : Char}

def StartsWith (opening : Char) (pattern : Pattern κ) : Prop :=
  ∀ ⦃here there : Place κ⦄, Leads pattern here there → ∃ more, here.cursor.rest = opening :: more

def EndsWith (closing : Char) (pattern : Pattern κ) : Prop :=
  ∀ ⦃here there : Place κ⦄, Leads pattern here there →
    ∃ passed, here.cursor.rest = passed ++ closing :: there.cursor.rest

theorem startsWith_char : StartsWith opening (char opening : Pattern κ) :=
  fun _ _ h => ⟨_, h.char_inv.1⟩

theorem StartsWith.append (h : StartsWith opening first) (second : Pattern κ) :
    StartsWith opening (first ++ second) := by
  intro here there hleads
  obtain ⟨middle, hfirst, -⟩ := leads_append.mp hleads
  exact h hfirst

theorem StartsWith.group (h : StartsWith opening pattern) (key : κ) :
    StartsWith opening (Pattern.group key pattern) := by
  intro here there hleads
  obtain ⟨middle, hbody, rfl⟩ := leads_group.mp hleads
  exact h hbody

theorem startsWith_exactly (piece : Text) :
    StartsWith opening (exactly (opening :: piece) : Pattern κ) :=
  startsWith_char.append _

theorem endsWith_char : EndsWith closing (char closing : Pattern κ) :=
  fun _ _ h => ⟨[], h.char_inv.1⟩

theorem EndsWith.append (first : Pattern κ) (h : EndsWith closing second) :
    EndsWith closing (first ++ second) := by
  intro here there hleads
  obtain ⟨middle, hfirst, hsecond⟩ := leads_append.mp hleads
  obtain ⟨front, hfront⟩ := hfirst.rest_suffix
  obtain ⟨passed, hpassed⟩ := h hsecond
  exact ⟨front ++ passed, by rw [← hfront, hpassed, List.append_assoc]⟩

theorem EndsWith.group (h : EndsWith closing pattern) (key : κ) :
    EndsWith closing (Pattern.group key pattern) := by
  intro here there hleads
  obtain ⟨middle, hbody, rfl⟩ := leads_group.mp hleads
  obtain ⟨passed, hpassed⟩ := h hbody
  exact ⟨passed, hpassed⟩

theorem endsWith_exactly (piece : Text) :
    EndsWith closing (exactly (piece ++ [closing]) : Pattern κ) := by
  intro here there hleads
  exact ⟨piece, by rw [hleads.exactly_inv.1, List.append_assoc, List.singleton_append]⟩

theorem isClosed_of_leads {here there : Place κ} (hopening : StartsWith opening pattern)
    (hclosing : EndsWith closing pattern) (hfeed : opening ≠ '\n') (hreturn : closing ≠ '\r')
    (h : Leads pattern here there) : IsClosed (here.cursor.spanTo there.cursor).text := by
  obtain ⟨more, hmore⟩ := hopening h
  obtain ⟨passed, hpassed⟩ := hclosing h
  have htext : (here.cursor.spanTo there.cursor).text = passed ++ [closing] := by
    refine spanTo_text_of_rest ?_
    rw [hpassed, List.append_assoc, List.singleton_append]
  have hhead : (passed ++ [closing]).head? = some opening := by
    have hrest : (passed ++ [closing] ++ there.cursor.rest).head? = some opening := by
      rw [List.append_assoc, List.singleton_append, ← hpassed, hmore, List.head?_cons]
    rwa [List.head?_append_of_ne_nil _ (by simp)] at hrest
  rw [htext]
  refine ⟨by simp, ?_, ?_⟩
  · rw [hhead]
    exact fun heq => hfeed (Option.some.inj heq)
  · rw [List.getLast?_concat]
    exact fun heq => hreturn (Option.some.inj heq)

theorem isClosed_of_matchAt (hopening : StartsWith opening pattern)
    (hclosing : EndsWith closing pattern) (hfeed : opening ≠ '\n') (hreturn : closing ≠ '\r')
    (h : pattern.matchAt here = some hit) : IsClosed hit.text := by
  obtain ⟨rfl, hleads⟩ := leads_of_matchAt h
  exact isClosed_of_leads hopening hclosing hfeed hreturn hleads

end Ends

end Visualforce.Pattern
