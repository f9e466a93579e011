import Visualforce.Proofs.Pattern.Confined
import Visualforce.Proofs.Pattern.Keyword
import Visualforce.Proofs.Text.LineEnds

/-! # Patterns and line ends

A pattern is run in a text and in the same text with its line ends unified. The runs go in step as
long as the first one does not stop between the two characters of a line end. A pattern keeps step
when it cannot stop there, and it absorbs line ends when what follows it refuses to go on there.
-/
namespace Visualforce.Pattern
open Cursor Digest

variable {κ : Type} {text rest : Text} {before : Option Char} {c : Char} {accepts : Char → Bool}

/-- The same place of a text and of the text with its line ends unified. It is not between the two
characters of a line end. -/
structure SamePlace (text : Text) (here there : Cursor) : Prop where
  source : ∃ passed, text = passed ++ here.rest ∧ here.before = passed.getLast?
  whole : ¬(here.before = some '\r' ∧ here.rest.head? = some '\n')
  unified : there = between (here.before.map unified) (unifyLineEnds here.rest)

/-- The place between the two characters of a line end. -/
def InLineEnd (here : Cursor) : Prop := ∃ rest, here = between (some '\r') ('\n' :: rest)

theorem samePlace_start (text : Text) :
    SamePlace text (start text) (start (unifyLineEnds text)) where
  source := ⟨[], rfl, rfl⟩
  whole h := nomatch h.1
  unified := rfl

namespace SamePlace

variable {here there next next' : Cursor}

theorem advance {passed : Text} (h : SamePlace text (between before (passed ++ rest)) there)
    (hpassed : passed ≠ []) (hwhole : ¬MeetInLineEnd passed rest) :
    SamePlace text (between passed.getLast? rest)
      (between (passed.getLast?.map Digest.unified) (unifyLineEnds rest)) := by
  obtain ⟨⟨front, hfront, -⟩, -, -⟩ := h
  refine ⟨⟨front ++ passed, ?_, ?_⟩, hwhole, rfl⟩
  · rw [hfront, List.append_assoc]
    rfl
  · rw [List.getLast?_append_of_ne_nil _ hpassed]
    rfl

theorem behind_char (h : SamePlace text (between before (c :: rest)) there)
    (hc : ¬(c = '\r' ∧ rest.head? = some '\n')) :
    SamePlace text (between (some c) rest)
      (between (some (Digest.unified c)) (unifyLineEnds rest)) :=
  h.advance (List.cons_ne_nil c []) fun hmeet => hc ⟨Option.some.inj hmeet.1, hmeet.2⟩

theorem afterLineEnd (h : SamePlace text (between before ('\r' :: '\n' :: rest)) there) :
    SamePlace text (between (some '\n') rest) (between (some '\n') (unifyLineEnds rest)) :=
  h.advance (List.cons_ne_nil '\r' ['\n']) fun hmeet => absurd hmeet.1 (by simp)

end SamePlace

/-- What lies ahead of the same place: nothing, a character or a line end of two characters. -/
inductive Ahead (text : Text) (here there : Cursor) : Prop where
  | nothing {before before' : Option Char} (hhere : here = between before [])
      (hthere : there = between before' [])
  | char {before before' : Option Char} {c : Char} {rest : Text}
      (hhere : here = between before (c :: rest))
      (hthere : there = between before' (unified c :: unifyLineEnds rest))
      (hsingle : ¬(c = '\r' ∧ rest.head? = some '\n'))
      (hnext : SamePlace text (between (some c) rest)
        (between (some (unified c)) (unifyLineEnds rest)))
  | lineEnd {before before' : Option Char} {rest : Text}
      (hhere : here = between before ('\r' :: '\n' :: rest))
      (hthere : there = between before' ('\n' :: unifyLineEnds rest))
      (hnext : SamePlace text (between (some '\n') rest)
        (between (some '\n') (unifyLineEnds rest)))

namespace SamePlace

variable {here there next next' : Cursor}

theorem ahead (h : SamePlace text here there) : Ahead text here there := by
  obtain rfl := h.unified
  rw [eq_between here] at h ⊢
  generalize here.before = before at *
  generalize here.rest = rest at *
  by_cases hpair : ∃ more, rest = '\r' :: '\n' :: more
  · obtain ⟨more, rfl⟩ := hpair
    refine .lineEnd rfl (congrArg (between _) ?_) h.afterLineEnd
    rw [between_rest, unifyLineEnds_return_feed]
  cases rest with
  | nil => exact .nothing rfl rfl
  | cons c rest =>
    have hsingle : ¬(c = '\r' ∧ rest.head? = some '\n') := by
      rintro ⟨rfl, hfeed⟩
      obtain ⟨more, rfl⟩ := List.head?_eq_some_iff.mp hfeed
      exact hpair ⟨more, rfl⟩
    refine .char rfl (congrArg (between _) ?_) hsingle (h.behind_char hsingle)
    rw [between_rest, unifyLineEnds_single hsingle]

/-- Of two places of a text one comes behind the other, and the text in between is unified for
itself. -/
theorem exists_between (hhere : SamePlace text here there) (hnext : SamePlace text next next') :
    (∃ middle, here.rest = middle ++ next.rest ∧
      there.rest = unifyLineEnds middle ++ next'.rest) ∨
      ∃ middle, next.rest = middle ++ here.rest ∧
        next'.rest = unifyLineEnds middle ++ there.rest := by
  have hlast {passed middle : Text} {place : Cursor}
      (hwhole : ¬(place.before = some '\r' ∧ place.rest.head? = some '\n'))
      (hbefore : place.before = (passed ++ middle).getLast?) :
      ¬MeetInLineEnd middle place.rest := by
    rintro ⟨hreturn, hfeed⟩
    refine hwhole ⟨?_, hfeed⟩
    rw [hbefore, List.getLast?_append, hreturn]
    rfl
  obtain ⟨⟨passed, htext, hbefore⟩, hwhole, rfl⟩ := hhere
  obtain ⟨⟨passed', htext', hbefore'⟩, hwhole', rfl⟩ := hnext
  rw [htext] at htext'
  obtain ⟨middle, rfl, hrest⟩ | ⟨middle, rfl, hrest⟩ := List.append_eq_append_iff.mp htext'
  · refine .inl ⟨middle, hrest, ?_⟩
    rw [between_rest, between_rest, hrest, unifyLineEnds_append (hlast hwhole' hbefore')]
  · refine .inr ⟨middle, hrest, ?_⟩
    rw [between_rest, between_rest, hrest, unifyLineEnds_append (hlast hwhole hbefore)]

theorem left_lt_iff (hhere : SamePlace text here there) (hnext : SamePlace text next next') :
    next.left < here.left ↔ next'.left < there.left := by
  rw [next.left_eq, here.left_eq, next'.left_eq, there.left_eq]
  obtain ⟨middle, hrest, hrest'⟩ | ⟨middle, hrest, hrest'⟩ := hhere.exists_between hnext
  · have hpos : 0 < middle.length ↔ 0 < (unifyLineEnds middle).length := by
      rw [List.length_pos_iff, List.length_pos_iff, Ne, Ne, unifyLineEnds_eq_nil_iff]
    rw [hrest, hrest', List.length_append, List.length_append]
    omega
  · rw [hrest, hrest', List.length_append, List.length_append]
    omega

/-- What lies between two places is unified for itself. -/
theorem spanTo_text (hhere : SamePlace text here there) (hnext : SamePlace text next next') :
    (there.spanTo next').text = unifyLineEnds (here.spanTo next).text := by
  rw [spanTo, spanTo, Span.text, Span.text, next.left_eq, here.left_eq, next'.left_eq,
    there.left_eq]
  obtain ⟨middle, hrest, hrest'⟩ | ⟨middle, hrest, hrest'⟩ := hhere.exists_between hnext
  · simp [hrest, hrest']
  · simp [hrest, hrest']

end SamePlace

/-- The same groups have taken part, and what they matched is unified. -/
def UnifiedGroups (groups groups' : List (κ × Span)) : Prop :=
  List.Forall₂ (fun first second => first.1 = second.1 ∧ second.2.text = unifyLineEnds first.2.text)
    groups groups'

theorem UnifiedGroups.lookup [BEq κ] {groups groups' : List (κ × Span)}
    (h : UnifiedGroups groups groups') (key : κ) : (groups'.lookup key).map Span.text =
      ((groups.lookup key).map Span.text).map unifyLineEnds := by
  induction h with
  | nil => rfl
  | @cons first second _ _ hfirst _ ih =>
    obtain ⟨name, span⟩ := first
    obtain ⟨name', span'⟩ := second
    obtain ⟨rfl, hspan⟩ : name = name' ∧ span'.text = unifyLineEnds span.text := hfirst
    rw [List.lookup_cons, List.lookup_cons]
    cases key == name with
    | true => exact congrArg some hspan
    | false => exact ih

structure InStep (text : Text) (here there : Place κ) : Prop where
  cursor : SamePlace text here.cursor there.cursor
  groups : UnifiedGroups here.groups there.groups

theorem isStepwise_inStep : IsStepwise (InStep text : Place κ → Place κ → Prop) where
  left_lt_iff hhere hnext := hhere.cursor.left_lt_iff hnext.cursor
  group _ hhere hnext :=
    ⟨hnext.cursor, .cons ⟨rfl, hhere.cursor.spanTo_text hnext.cursor⟩ hnext.groups⟩

variable {results : Place κ → Place κ → Prop} {goOn goOn' : Place κ → Option (Place κ)}
variable {pattern first second item : Pattern κ}

/-- From places in step the continuations come to related results. -/
def Follows (text : Text) (results : Place κ → Place κ → Prop)
    (goOn goOn' : Place κ → Option (Place κ)) : Prop :=
  ∀ {here there}, InStep text here there → Option.Rel results (goOn here) (goOn' there)

def Halts (goOn : Place κ → Option (Place κ)) : Prop :=
  ∀ {here}, InLineEnd here.cursor → goOn here = none

structure Keeps (pattern : Pattern κ) : Prop where
  run : ∀ {text results goOn goOn'}, Follows text results goOn goOn' →
    Follows text results (pattern.run · goOn) (pattern.run · goOn')

/-- The pattern may stop inside a line end, as long as nothing goes on there. -/
structure Absorbs (pattern : Pattern κ) : Prop where
  run : ∀ {text results goOn goOn'}, Follows text results goOn goOn' → Halts goOn →
    Follows text results (pattern.run · goOn) (pattern.run · goOn')

/-- The pattern does not match inside a line end. -/
structure Blocks (pattern : Pattern κ) : Prop where
  run : ∀ goOn, Halts (pattern.run · goOn)

/-- Inside a line end the pattern does not get any further. -/
structure Stays (pattern : Pattern κ) : Prop where
  run : ∀ {goOn}, Halts goOn → Halts (pattern.run · goOn)

theorem Keeps.absorbs (h : Keeps pattern) : Absorbs pattern := ⟨fun hgo _ => h.run hgo⟩

theorem Blocks.stays (h : Blocks pattern) : Stays pattern := ⟨fun _ => h.run _⟩

theorem rel_or {α β : Type} {related : α → β → Prop} {first second : Option α}
    {first' second' : Option β} (hfirst : Option.Rel related first first')
    (hsecond : Option.Rel related second second') :
    Option.Rel related (first.or second) (first'.or second') := by
  cases hfirst with
  | none => exact hsecond
  | some hlast => exact .some hlast

section Rules

theorem Keeps.append (hfirst : Keeps first) (hsecond : Keeps second) : Keeps (first ++ second) :=
  ⟨fun hgo => hfirst.run (hsecond.run hgo)⟩

theorem Keeps.append_absorbs (hfirst : Keeps first) (hsecond : Absorbs second) :
    Absorbs (first ++ second) :=
  ⟨fun hgo hhalts => hfirst.run (hsecond.run hgo hhalts)⟩

theorem Absorbs.append_keeps (hfirst : Absorbs first) (hsecond : Keeps second)
    (hblocks : Blocks second) : Keeps (first ++ second) :=
  ⟨fun hgo => hfirst.run (hsecond.run hgo) (hblocks.run _)⟩

theorem Absorbs.append (hfirst : Absorbs first) (hsecond : Absorbs second)
    (hstays : Stays second) : Absorbs (first ++ second) :=
  ⟨fun hgo hhalts => hfirst.run (hsecond.run hgo hhalts) (hstays.run hhalts)⟩

theorem Blocks.append (hfirst : Blocks first) (second : Pattern κ) : Blocks (first ++ second) :=
  ⟨fun _ => hfirst.run _⟩

theorem Stays.append_blocks (hfirst : Stays first) (hsecond : Blocks second) :
    Blocks (first ++ second) :=
  ⟨fun _ => hfirst.run (hsecond.run _)⟩

theorem Stays.append (hfirst : Stays first) (hsecond : Stays second) : Stays (first ++ second) :=
  ⟨fun hhalts => hfirst.run (hsecond.run hhalts)⟩

theorem keeps_empty : Keeps (empty : Pattern κ) := ⟨fun hgo => hgo⟩

theorem stays_empty : Stays (empty : Pattern κ) := ⟨fun hhalts => hhalts⟩

theorem Keeps.alt (hfirst : Keeps first) (hsecond : Keeps second) : Keeps (alt first second) := by
  refine ⟨fun hgo here there h => ?_⟩
  simp only [run_alt]
  exact rel_or (hfirst.run hgo h) (hsecond.run hgo h)

theorem Absorbs.alt (hfirst : Absorbs first) (hsecond : Absorbs second) :
    Absorbs (Pattern.alt first second) := by
  refine ⟨fun hgo hhalts here there h => ?_⟩
  simp only [run_alt]
  exact rel_or (hfirst.run hgo hhalts h) (hsecond.run hgo hhalts h)

theorem Blocks.alt (hfirst : Blocks first) (hsecond : Blocks second) :
    Blocks (Pattern.alt first second) := by
  refine ⟨fun goOn here h => ?_⟩
  simp only [run_alt, hfirst.run goOn h, hsecond.run goOn h, Option.or_none]

theorem Stays.alt (hfirst : Stays first) (hsecond : Stays second) :
    Stays (Pattern.alt first second) := by
  refine ⟨fun hhalts here h => ?_⟩
  simp only [run_alt, hfirst.run hhalts h, hsecond.run hhalts h, Option.or_none]

theorem Keeps.maybe (h : Keeps item) : Keeps (maybe item) := h.alt keeps_empty

theorem Stays.maybe (h : Stays item) : Stays (Pattern.maybe item) := h.alt stays_empty

theorem follows_group {here there : Place κ} (key : κ) (h : InStep text here there)
    (hgo : Follows text results goOn goOn') :
    Follows text results
      (fun last => goOn ⟨last.cursor, (key, here.cursor.spanTo last.cursor) :: last.groups⟩)
      (fun last => goOn' ⟨last.cursor, (key, there.cursor.spanTo last.cursor) :: last.groups⟩) :=
  fun hlast => hgo (isStepwise_inStep.group key h hlast)

theorem halts_group {here : Place κ} (key : κ) (hhalts : Halts goOn) :
    Halts fun last => goOn ⟨last.cursor, (key, here.cursor.spanTo last.cursor) :: last.groups⟩ :=
  fun hlast => hhalts hlast

theorem Keeps.group (h : Keeps pattern) (key : κ) : Keeps (group key pattern) :=
  ⟨fun hgo _ _ hhere => h.run (follows_group key hhere hgo) hhere⟩

theorem Absorbs.group (h : Absorbs pattern) (key : κ) : Absorbs (Pattern.group key pattern) :=
  ⟨fun hgo hhalts _ _ hhere => h.run (follows_group key hhere hgo) (halts_group key hhalts) hhere⟩

theorem Blocks.group (h : Blocks pattern) (key : κ) : Blocks (Pattern.group key pattern) :=
  ⟨fun _ _ hhere => h.run _ hhere⟩

theorem Stays.group (h : Stays pattern) (key : κ) : Stays (Pattern.group key pattern) :=
  ⟨fun hhalts _ hhere => h.run (halts_group key hhalts) hhere⟩

theorem keeps_guard {holds : Cursor → Bool}
    (h : ∀ {text here there}, SamePlace text here there → holds here = holds there) :
    Keeps (guard holds : Pattern κ) := by
  refine ⟨fun hgo here there hhere => ?_⟩
  simp only [run_guard, h hhere.cursor]
  split_ifs
  · exact hgo hhere
  · exact .none

theorem stays_guard (holds : Cursor → Bool) : Stays (guard holds : Pattern κ) := by
  refine ⟨fun hhalts here h => ?_⟩
  simp only [run_guard, hhalts h, ite_self]

end Rules

/-- Where no line end is ahead one character is taken in step. -/
theorem rel_one (accepts : Char → Bool) {here there : Place κ} (hhere : InStep text here there)
    (hhead : ∀ c ∈ here.cursor.rest.head?, isLineEnd c = false) :
    Option.Rel (InStep text) ((one accepts).run here some) ((one accepts).run there some) := by
  obtain ⟨cursor, groups⟩ := here
  obtain ⟨cursor', groups'⟩ := there
  obtain ⟨hcursor, hgroups⟩ := hhere
  cases hcursor.ahead with
  | nothing hhere hthere =>
    subst hhere hthere
    exact .none
  | @char before before' c rest hhere hthere hsingle hnext =>
    subst hhere hthere
    have hc : isLineEnd c = false := hhead c rfl
    have hkeep : unified c = c := by rw [unified, hc]; rfl
    rw [hkeep] at hnext ⊢
    rw [run_one_cons, run_one_cons]
    split_ifs
    · exact .some ⟨hnext, hgroups⟩
    · exact .none
  | lineEnd hhere =>
    subst hhere
    exact absurd (hhead '\r' rfl) (by decide)

theorem keeps_one (hreturn : accepts '\r' = false) (hfeed : accepts '\n' = false) :
    Keeps (one accepts : Pattern κ) := by
  refine ⟨fun {text results goOn goOn'} hgo here there hhere => ?_⟩
  obtain ⟨cursor, groups⟩ := here
  obtain ⟨cursor', groups'⟩ := there
  obtain ⟨hcursor, hgroups⟩ := hhere
  cases hcursor.ahead with
  | nothing hhere hthere =>
    subst hhere hthere
    exact .none
  | char hhere hthere hsingle hnext =>
    subst hhere hthere
    simp only [run_one_cons, apply_unified (hreturn.trans hfeed.symm)]
    split_ifs
    · exact hgo ⟨hnext, hgroups⟩
    · exact .none
  | lineEnd hhere hthere =>
    subst hhere hthere
    simp only [run_one_cons, hreturn, hfeed]
    exact .none

theorem blocks_one (hfeed : accepts '\n' = false) : Blocks (one accepts : Pattern κ) := by
  refine ⟨?_⟩
  rintro goOn ⟨cursor, groups⟩ ⟨rest, rfl⟩
  exact if_neg (by simp [hfeed])

theorem keeps_char (hc : isLineEnd c = false) : Keeps (char c : Pattern κ) :=
  keeps_one (beq_lineEnd hc).1 (beq_lineEnd hc).2

theorem blocks_char (hc : isLineEnd c = false) : Blocks (char c : Pattern κ) :=
  blocks_one (beq_lineEnd hc).2

theorem keeps_exactly {piece : Text} (h : ∀ c ∈ piece, isLineEnd c = false) :
    Keeps (exactly piece : Pattern κ) := by
  induction piece with
  | nil => exact keeps_empty
  | cons c piece ih =>
    obtain ⟨hc, hpiece⟩ := List.forall_mem_cons.mp h
    exact (keeps_char hc).append (ih hpiece)

theorem blocks_exactly {piece : Text} (hc : isLineEnd c = false) :
    Blocks (exactly (c :: piece) : Pattern κ) :=
  (blocks_char hc).append (exactly piece)

theorem sameUpToCase_lineEnd (hc : isLineEnd c = false) :
    Text.sameUpToCase c '\r' = false ∧ Text.sameUpToCase c '\n' = false := by
  have hkey : Text.foldKey c ≠ 13 ∧ Text.foldKey c ≠ 10 := by
    by_cases hascii : c.toNat < 128
    · exact Text.forall_ascii (fun c => isLineEnd c = false →
        Text.foldKey c ≠ 13 ∧ Text.foldKey c ≠ 10) (by decide +kernel) hascii hc
    · rcases foldKey_of_not_ascii (Nat.not_lt.mp hascii) with hkey | hkey
      · simp only [List.mem_cons, List.not_mem_nil, or_false] at hkey
        omega
      · omega
  exact ⟨beq_false_of_ne hkey.1, beq_false_of_ne hkey.2⟩

theorem keeps_caseless {piece : Text} (h : ∀ c ∈ piece, isLineEnd c = false) :
    Keeps (caseless piece : Pattern κ) := by
  induction piece with
  | nil => exact keeps_empty
  | cons c piece ih =>
    obtain ⟨hc, hpiece⟩ := List.forall_mem_cons.mp h
    obtain ⟨hreturn, hfeed⟩ := sameUpToCase_lineEnd hc
    exact (keeps_one hreturn hfeed).append (ih hpiece)

theorem blocks_caseless {piece : Text} (hc : isLineEnd c = false) :
    Blocks (caseless (c :: piece) : Pattern κ) :=
  (blocks_one (sameUpToCase_lineEnd hc).2).append (caseless piece)

theorem keeps_firstOf {patterns : List (Pattern κ)} (h : ∀ pattern ∈ patterns, Keeps pattern) :
    Keeps (firstOf patterns) := by
  induction patterns with
  | nil => exact keeps_guard fun _ => rfl
  | cons pattern patterns ih =>
    obtain ⟨hpattern, hpatterns⟩ := List.forall_mem_cons.mp h
    cases patterns with
    | nil => exact hpattern
    | cons other others => exact hpattern.alt (ih hpatterns)

theorem Keeps.many (h : Keeps item) (greedy : Bool) : Keeps (many greedy item) := by
  refine ⟨fun {text results goOn goOn'} hgo here there hhere => ?_⟩
  have hstep {place place' : Place κ} (hplace : InStep text place place') :
      Option.Rel (InStep text) (item.run place some) (item.run place' some) :=
    h.run (fun hlast => .some hlast) hplace
  cases greedy with
  | true =>
    simp only [(run_many_enough (Nat.le_max_left here.cursor.left there.cursor.left)).1,
      (run_many_enough (Nat.le_max_right here.cursor.left there.cursor.left)).1]
    exact rel_findSome? (forall₂_stations isStepwise_inStep hstep hhere .nil _) hgo
  | false =>
    simp only [(run_many_enough (Nat.le_max_left here.cursor.left there.cursor.left)).2,
      (run_many_enough (Nat.le_max_right here.cursor.left there.cursor.left)).2]
    exact rel_shortest isStepwise_inStep hstep hgo hhere _

theorem keeps_plusOne (hreturn : accepts '\r' = false) (hfeed : accepts '\n' = false) :
    Keeps (plus (one accepts) : Pattern κ) :=
  (keeps_one hreturn hfeed).append ((keeps_one hreturn hfeed).many true)

theorem keeps_wordEdge : Keeps (wordEdge : Pattern κ) := by
  refine keeps_guard fun {text here there} h => ?_
  have hword : (Text.isWord '\r') = Text.isWord '\n' := by decide
  have hany (place : Option Char) :
      (place.map unified).any Text.isWord = place.any Text.isWord := by
    cases place with
    | none => rfl
    | some c => exact apply_unified hword c
  rw [h.unified, atWordEdge, atWordEdge, between_before, between_rest, head?_unifyLineEnds, hany,
    hany]

theorem blocks_wordEdge : Blocks (wordEdge : Pattern κ) := by
  refine ⟨?_⟩
  rintro goOn ⟨cursor, groups⟩ ⟨rest, rfl⟩
  rfl

/-- Behind a unit the repetition goes on; if that leads nowhere, or nothing was taken, it ends. -/
theorem run_star_eq (item : Pattern κ) (goOn : Place κ → Option (Place κ)) (here : Place κ) :
    (star item).run here goOn =
    match item.run here some with
    | some next =>
      if next.cursor.left < here.cursor.left then ((star item).run next goOn).or (goOn here)
      else goOn here
    | none => goOn here := by
  cases hitem : item.run here some with
  | none => exact run_star_stop hitem
  | some next =>
    simp only
    split_ifs with hlt
    · exact run_star_step hitem hlt
    · have hstations : stations (fun p => item.run p some) here.cursor.left here [] = [here] := by
        cases here.cursor.left with
        | zero => rfl
        | succ n =>
          rw [stations, hitem]
          exact if_neg hlt
      simp only [star, run, hstations, List.findSome?_singleton]

theorem run_starLazy_eq (item : Pattern κ) (goOn : Place κ → Option (Place κ)) (here : Place κ) :
    (starLazy item).run here goOn =
    (goOn here).or (match item.run here some with
      | some next =>
        if next.cursor.left < here.cursor.left then (starLazy item).run next goOn else none
      | none => none) := by
  cases hgo : goOn here with
  | some last => exact run_starLazy_here hgo
  | none =>
    rw [Option.none_or]
    cases hitem : item.run here some with
    | none => exact run_starLazy_stop hgo hitem
    | some next =>
      simp only
      split_ifs with hlt
      · exact run_starLazy_step hgo hitem hlt
      · simp only [starLazy, run]
        cases here.cursor.left with
        | zero => exact hgo
        | succ n =>
          rw [shortest, hgo, hitem]
          exact if_neg hlt

/-- A unit takes one character of a line end, and keeps step where none is ahead. -/
structure TakesLineEnds (item : Pattern κ) : Prop where
  lineEnd : ∀ {c before rest groups}, isLineEnd c →
    item.run ⟨between before (c :: rest), groups⟩ some = some ⟨between (some c) rest, groups⟩
  other : ∀ {text here there}, InStep text here there →
    (∀ c ∈ here.cursor.rest.head?, isLineEnd c = false) →
      Option.Rel (InStep text) (item.run here some) (item.run there some)

/-- Two runs of a repetition from related places, told apart by what one unit does there. -/
theorem rel_many_eq {greedy : Bool} {here there : Place κ} (hhere : InStep text here there)
    (hgo : Follows text results goOn goOn')
    (hitem : Option.Rel (InStep text) (item.run here some) (item.run there some))
    (hnext : ∀ {next next'}, InStep text next next' → next.cursor.left < here.cursor.left →
      Option.Rel results ((many greedy item).run next goOn) ((many greedy item).run next' goOn')) :
    Option.Rel results ((many greedy item).run here goOn) ((many greedy item).run there goOn') := by
  have hdecide {next next' : Place κ} (h : InStep text next next') :=
    hhere.cursor.left_lt_iff h.cursor
  cases greedy with
  | true =>
    have heq := run_star_eq item
    simp only [star] at heq
    rw [heq, heq]
    obtain ⟨hnone, hnone'⟩ | ⟨next, next', hsome, hsome', hstep⟩ := rel_cases hitem
    · rw [hnone, hnone']
      exact hgo hhere
    · simp only [hsome, hsome', hdecide hstep]
      split_ifs with hlt
      · exact rel_or (hnext hstep ((hdecide hstep).mpr hlt)) (hgo hhere)
      · exact hgo hhere
  | false =>
    have heq := run_starLazy_eq item
    simp only [starLazy] at heq
    rw [heq, heq]
    refine rel_or (hgo hhere) ?_
    obtain ⟨hnone, hnone'⟩ | ⟨next, next', hsome, hsome', hstep⟩ := rel_cases hitem
    · rw [hnone, hnone']
      exact .none
    · simp only [hsome, hsome', hdecide hstep]
      split_ifs with hlt
      · exact hnext hstep ((hdecide hstep).mpr hlt)
      · exact .none

theorem run_many_step {greedy : Bool} {here next : Place κ} (hitem : item.run here some = some next)
    (hlt : next.cursor.left < here.cursor.left) : (many greedy item).run here goOn =
      if greedy then ((many greedy item).run next goOn).or (goOn here)
      else (goOn here).or ((many greedy item).run next goOn) := by
  cases greedy with
  | true => exact run_star_step hitem hlt
  | false =>
    have heq := run_starLazy_eq item goOn here
    simp only [hitem, if_pos hlt] at heq
    exact heq

theorem eq_none_of_run_star {here : Place κ} (h : (star item).run here goOn = none) :
    goOn here = none := by
  rw [run_star_eq] at h
  split at h
  · split_ifs at h
    · exact (Option.or_eq_none_iff.mp h).2
    · exact h
  · exact h

/-- What goes on inside a line end goes on behind it in the same way. -/
def Slips (goOn : Place κ → Option (Place κ)) : Prop :=
  ∀ {rest groups last}, goOn ⟨between (some '\r') ('\n' :: rest), groups⟩ = some last →
    goOn ⟨between (some '\n') rest, groups⟩ = some last

theorem Halts.slips (hhalts : Halts goOn) : Slips goOn := by
  intro rest groups last h
  have hnone : goOn ⟨between (some '\r') ('\n' :: rest), groups⟩ = none := hhalts ⟨rest, rfl⟩
  rw [hnone] at h
  cases h

/-- To go on inside a line end gives nothing that the repetition does not give behind it. -/
theorem Slips.run_many (hslips : Slips goOn) (item : Pattern κ) (greedy : Bool) (rest : Text)
    (groups : List (κ × Span)) :
    (if greedy then ((many greedy item).run ⟨between (some '\n') rest, groups⟩ goOn).or
        (goOn ⟨between (some '\r') ('\n' :: rest), groups⟩)
      else (goOn ⟨between (some '\r') ('\n' :: rest), groups⟩).or
        ((many greedy item).run ⟨between (some '\n') rest, groups⟩ goOn)) =
      (many greedy item).run ⟨between (some '\n') rest, groups⟩ goOn := by
  cases hinside : goOn ⟨between (some '\r') ('\n' :: rest), groups⟩ with
  | none => rw [Option.or_none, Option.none_or, ite_self]
  | some last =>
    have hbehind := hslips hinside
    cases greedy with
    | true =>
      cases hrun : (many true item).run ⟨between (some '\n') rest, groups⟩ goOn with
      | none =>
        rw [eq_none_of_run_star hrun] at hbehind
        cases hbehind
      | some found => rfl
    | false => exact (run_starLazy_here hbehind).symm

/-- Both characters of a line end are taken. -/
theorem TakesLineEnds.run_lineEnd (h : TakesLineEnds item) (greedy : Bool) (hslips : Slips goOn)
    {groups : List (κ × Span)} :
    (many greedy item).run ⟨between before ('\r' :: '\n' :: rest), groups⟩ goOn =
      if greedy then ((many greedy item).run ⟨between (some '\n') rest, groups⟩ goOn).or
        (goOn ⟨between before ('\r' :: '\n' :: rest), groups⟩)
      else (goOn ⟨between before ('\r' :: '\n' :: rest), groups⟩).or
        ((many greedy item).run ⟨between (some '\n') rest, groups⟩ goOn) := by
  rw [run_many_step (h.lineEnd (by decide)) (by simp),
    run_many_step (h.lineEnd (by decide)) (by simp),
    hslips.run_many]

theorem TakesLineEnds.follows (h : TakesLineEnds item) (greedy : Bool)
    (hgo : Follows text results goOn goOn') (hslips : Slips goOn) :
    Follows text results ((many greedy item).run · goOn) ((many greedy item).run · goOn') := by
  intro here there hhere
  induction hleft : here.cursor.left using Nat.strong_induction_on generalizing here there with
  | _ n ih =>
    subst hleft
    have hsame := hgo hhere
    have hrel (hitem : Option.Rel (InStep text) (item.run here some) (item.run there some)) :=
      rel_many_eq hhere hgo hitem fun hnext hlt => ih _ hlt hnext rfl
    obtain ⟨cursor, groups⟩ := here
    obtain ⟨cursor', groups'⟩ := there
    obtain ⟨hcursor, hgroups⟩ := hhere
    cases hcursor.ahead with
    | nothing hhere =>
      subst hhere
      exact hrel (h.other ⟨hcursor, hgroups⟩ fun c hc => nomatch hc)
    | @char before before' c rest hhere hthere hsingle hnext =>
      subst hhere hthere
      refine hrel ?_
      cases hc : isLineEnd c with
      | true =>
        rw [h.lineEnd hc, h.lineEnd (by rw [unified, if_pos hc]; rfl)]
        exact .some ⟨hnext, hgroups⟩
      | false =>
        refine h.other ⟨hcursor, hgroups⟩ ?_
        rintro _ ⟨⟩
        exact hc
    | @lineEnd before before' rest hhere hthere hnext =>
      subst hhere hthere
      have hstep : InStep text ⟨between (some '\n') rest, groups⟩
          ⟨between (some '\n') (unifyLineEnds rest), groups'⟩ := ⟨hnext, hgroups⟩
      have hlt : rest.length < ('\r' :: '\n' :: rest).length := by
        simp only [List.length_cons]
        omega
      have hbehind := ih rest.length hlt hstep rfl
      beta_reduce at hbehind ⊢
      rw [h.run_lineEnd greedy hslips, run_many_step (h.lineEnd (by decide)) (by simp)]
      cases greedy with
      | true => exact rel_or hbehind hsame
      | false => exact rel_or hsame hbehind

theorem TakesLineEnds.absorbs (h : TakesLineEnds item) (greedy : Bool) :
    Absorbs (many greedy item) :=
  ⟨fun hgo hhalts => h.follows greedy hgo hhalts.slips⟩

theorem takesLineEnds_one (h : ∀ c, isLineEnd c → accepts c) :
    TakesLineEnds (one accepts : Pattern κ) where
  lineEnd hc := if_pos (h _ hc)
  other := rel_one accepts

theorem TakesLineEnds.alt (h : TakesLineEnds (one accepts : Pattern κ)) (hsecond : Keeps second) :
    TakesLineEnds (Pattern.alt (one accepts) second) where
  lineEnd hc := by rw [run_alt, h.lineEnd hc, Option.some_or]
  other hhere hhead := by
    rw [run_alt, run_alt]
    exact rel_or (h.other hhere hhead) (hsecond.run (fun hlast => .some hlast) hhere)

theorem follows_manyOne (h : accepts '\r' = accepts '\n') (greedy : Bool)
    (hgo : Follows text results goOn goOn') (hslips : Slips goOn) :
    Follows text results ((many greedy (one accepts)).run · goOn)
      ((many greedy (one accepts)).run · goOn') := by
  cases hfeed : accepts '\n' with
  | true =>
    refine (takesLineEnds_one fun c hc => ?_).follows greedy hgo hslips
    rcases isLineEnd_iff.mp hc with rfl | rfl
    · exact hfeed
    · exact h.trans hfeed
  | false => exact ((keeps_one (h.trans hfeed) hfeed).many greedy).run hgo

theorem absorbs_manyOne (h : accepts '\r' = accepts '\n') (greedy : Bool) :
    Absorbs (many greedy (one accepts) : Pattern κ) :=
  ⟨fun hgo hhalts => follows_manyOne h greedy hgo hhalts.slips⟩

/-- A repetition that takes line ends goes on inside one as it does behind it. -/
theorem slips_manyOne (hfeed : accepts '\n') (hslips : Slips goOn) :
    Slips ((starLazy (one accepts)).run · goOn) := by
  intro rest groups last h
  have hitem : (one accepts).run ⟨between (some '\r') ('\n' :: rest), groups⟩ some =
      some ⟨between (some '\n') rest, groups⟩ := by rw [run_one_cons, if_pos hfeed]
  have hrun := hslips.run_many (one accepts) false rest groups
  beta_reduce at h ⊢
  rw [starLazy] at h ⊢
  rw [run_many_step hitem (by simp)] at h
  exact hrun ▸ h

theorem follows_plusOne (h : accepts '\r' = accepts '\n')
    (hgo : Follows text results goOn goOn') (hslips : Slips goOn) :
    Follows text results ((plus (one accepts)).run · goOn) ((plus (one accepts)).run · goOn') := by
  intro here there hhere
  have hmany : Follows text results ((star (one accepts)).run · goOn)
      ((star (one accepts)).run · goOn') := follows_manyOne h true hgo hslips
  obtain ⟨cursor, groups⟩ := here
  obtain ⟨cursor', groups'⟩ := there
  obtain ⟨hcursor, hgroups⟩ := hhere
  cases hcursor.ahead with
  | nothing hhere hthere =>
    subst hhere hthere
    exact .none
  | char hhere hthere hsingle hnext =>
    subst hhere hthere
    simp only [plus, run_append, run_one_cons, apply_unified h]
    split_ifs
    · exact hmany ⟨hnext, hgroups⟩
    · exact .none
  | @lineEnd before before' rest hhere hthere hnext =>
    subst hhere hthere
    simp only [plus, run_append, run_one_cons, h]
    split_ifs with hfeed
    · have hitem : (one accepts).run ⟨between (some '\r') ('\n' :: rest), groups⟩ some =
          some ⟨between (some '\n') rest, groups⟩ := by rw [run_one_cons, if_pos hfeed]
      have hrun := hslips.run_many (one accepts) true rest groups
      rw [run_many_step hitem (by simp), hrun]
      exact hmany ⟨hnext, hgroups⟩
    · exact .none

theorem absorbs_plusOne (h : accepts '\r' = accepts '\n') :
    Absorbs (plus (one accepts) : Pattern κ) :=
  ⟨fun hgo hhalts => follows_plusOne h hgo hhalts.slips⟩

/-- Two repetitions in a row may part inside a line end. -/
theorem absorbs_plusOne_lazy {others : Char → Bool} (h : accepts '\r' = accepts '\n')
    (hothers : others '\r' = others '\n') (hfeed : others '\n') :
    Absorbs (plus (one accepts) ++ starLazy (one others) : Pattern κ) :=
  ⟨fun hgo hhalts => follows_plusOne h ((absorbs_manyOne hothers false).run hgo hhalts)
    (slips_manyOne hfeed hhalts.slips)⟩

end Visualforce.Pattern
