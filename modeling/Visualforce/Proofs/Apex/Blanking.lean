import Mathlib.Logic.Relation
import Visualforce.Proofs.Apex.InnerClasses

/-! # Blanking out inner classes

The members of a class are looked for in its body without the inner classes. A loop takes them out:
it searches the body from where it has come to, puts spaces in place of the class that it finds, and
goes on behind the brace that closes it. The class is found in the body and blanked out of the
members, so the two must be aligned. They are: what the spans of the classes cover is blank, and
every other character stands at its place in the body. Only a class without a closing brace, the
last one, adds a space at the end. Each round comes further, so the loop ends, and what it ends with
gives the class that is read, its inner classes from shorter bodies.
-/
namespace Visualforce.Apex
open Pattern Cursor Relation

variable {text body front heading closing : Text} {hit : Hit Unit} {d : Declaration}

/-- An inner class in a body: its name, where it begins, where the text behind its opening brace
begins, and where the closing brace stands, which is the end of the body if there is none. -/
structure ClassSpan where
  name : Text
  start : Nat
  inside : Nat
  closing : Nat
deriving DecidableEq

namespace ClassSpan

/-- The text between the braces. -/
def content (text : Text) (span : ClassSpan) : Text :=
  (text.drop span.inside).take (span.closing - span.inside)

def Covers (span : ClassSpan) (place : Nat) : Prop := span.start ≤ place ∧ place ≤ span.closing

instance (span : ClassSpan) (place : Nat) : Decidable (span.Covers place) :=
  inferInstanceAs (Decidable (_ ∧ _))

def ofHit (text : Text) (hit : Hit Unit) : ClassSpan :=
  let inside := text.length - hit.stop.left
  ⟨hit.group (), text.length - hit.start.left, inside, matchingBrace text (inside - 1)⟩

/-- A span lies in the text, and behind its opening brace there is its closing one or the end. -/
structure IsIn (text : Text) (span : ClassSpan) : Prop where
  start_lt : span.start < span.inside
  inside_le : span.inside ≤ span.closing
  closing_le : span.closing ≤ text.length
  opened : text[span.inside - 1]? = some '\x7b'
  closed : span.closing < text.length → text[span.closing]? = some '\x7d'

theorem IsIn.length_content_lt {span : ClassSpan} (h : span.IsIn text) :
    (span.content text).length < text.length := by
  have hlength := List.length_take_le (span.closing - span.inside) (text.drop span.inside)
  obtain ⟨hstart, hinside, hclosing, -, -⟩ := h
  rw [ClassSpan.content]
  omega

end ClassSpan

/-- The loop between two rounds: the place in the body it has come to, the classes it has found, and
the members, which are the body with these classes blanked out. -/
structure Blanking where
  place : Nat
  spans : List ClassSpan
  members : Text
deriving DecidableEq

namespace Blanking

def begin (body : Text) : Blanking := ⟨0, [], body⟩

def blank (state : Blanking) (span : ClassSpan) : Blanking where
  place := span.closing + 1
  spans := state.spans ++ [span]
  members := state.members.take span.start ++ List.replicate (span.closing + 1 - span.start) ' ' ++
    state.members.drop (span.closing + 1)

@[simp] theorem place_blank (state : Blanking) (span : ClassSpan) :
    (state.blank span).place = span.closing + 1 := rfl

@[simp] theorem spans_blank (state : Blanking) (span : ClassSpan) :
    (state.blank span).spans = state.spans ++ [span] := rfl

/-- One round, if there is one more class. -/
def next? (body : Text) (state : Blanking) : Option Blanking :=
  (classPattern.searchFrom (cursorAt body state.place)).map fun hit =>
    state.blank (ClassSpan.ofHit body hit)

def Steps (body : Text) (state next : Blanking) : Prop := state.next? body = some next

/-- The loop comes to this state. -/
def Arises (body : Text) : Blanking → Prop := ReflTransGen (Steps body) (begin body)

/-- The members agree with the body place by place: spaces where a class was found, one more at the
end if the last one is not closed, and everywhere else the characters of the body. -/
structure IsAligned (body : Text) (state : Blanking) : Prop where
  char_eq : ∀ place, state.members[place]? = if ∃ span ∈ state.spans, span.Covers place then some
    ' ' else body[place]?
  length_eq : state.members.length = body.length + if state.spans.getLast?.any
    (·.closing == body.length) then 1 else 0
  ordered : state.spans.Pairwise fun first second => first.closing < second.start
  isIn : ∀ span ∈ state.spans, span.IsIn body
  behind : ∀ span ∈ state.spans, span.closing < state.place
  place_le : state.place ≤ state.members.length

/-- A round finds a class behind the last one, in which there is less text than in the body, and
comes to a place behind it. -/
structure Advances (body : Text) (state next : Blanking) (span : ClassSpan) : Prop where
  spans_eq : next.spans = state.spans ++ [span]
  isIn : span.IsIn body
  place_le : state.place ≤ span.start
  place_eq : next.place = span.closing + 1
  shorter : (span.content body).length < body.length

/-- The class of the given name that is read when the loop is done. -/
def toClass (body name : Text) (last : Blanking) : Class :=
  .mk name ((propertyPattern.hits last.members).map propertyOf)
    ((methodPattern.hits last.members).map methodOf)
    (last.spans.map fun span => readBody ((span.content body).length + 1) span.name
      (span.content body))

/-- Whatever is not blank in a match among the members stands at the same place in the body, and in
no inner class. -/
def IsOutside (body : Text) (last : Blanking) (hit : Hit MemberPart) : Prop :=
  ∀ i c, hit.text[i]? = some c → Text.isBlank c = false →
    let place := last.members.length - hit.start.left + i
    body[place]? = some c ∧ ∀ span ∈ last.spans, ¬ span.Covers place

end Blanking

section Blank
variable {first last : Nat}

theorem length_blank (hfirst : first ≤ text.length) (hle : first ≤ last) :
    (text.take first ++ List.replicate (last - first) ' ').length = last := by
  rw [List.length_append, List.length_take_of_le hfirst, List.length_replicate,
    Nat.add_sub_cancel' hle]

theorem getElem?_blank (hfirst : first ≤ text.length) (hle : first ≤ last) (place : Nat) :
    (text.take first ++ List.replicate (last - first) ' ' ++ text.drop last)[place]? =
      if first ≤ place ∧ place < last then some ' ' else text[place]? := by
  have htake : (text.take first).length = first := List.length_take_of_le hfirst
  have hfront := length_blank hfirst hle
  rcases Nat.lt_or_ge place last with hlast | hlast
  · rw [List.getElem?_append_left (hlast.trans_eq hfront.symm)]
    rcases Nat.lt_or_ge place first with hplace | hplace
    · rw [List.getElem?_append_left (hplace.trans_eq htake.symm), List.getElem?_take_of_lt hplace,
        if_neg (by omega)]
    · rw [List.getElem?_append_right (htake.trans_le hplace), htake,
        List.getElem?_replicate_of_lt (by omega), if_pos ⟨hplace, hlast⟩]
  · rw [List.getElem?_append_right (hfront.trans_le hlast), hfront, List.getElem?_drop,
      Nat.add_sub_cancel' hlast, if_neg (by omega)]

end Blank

namespace Blanking
variable {state next : Blanking} {span : ClassSpan}

theorem isAligned_begin (body : Text) : (begin body).IsAligned body where
  char_eq place := by simp [begin]
  length_eq := rfl
  ordered := .nil
  isIn := List.forall_mem_nil _
  behind := List.forall_mem_nil _
  place_le := Nat.zero_le _

/-- A class that begins in the body comes behind no class without a closing brace. -/
theorem IsAligned.length_members (h : state.IsAligned body) (hspan : span.IsIn body)
    (hplace : state.place ≤ span.start) :
    state.members.length = body.length := by
  have hclosed : state.spans.getLast?.any (·.closing == body.length) = false := by
    cases hlast : state.spans.getLast? with
    | none => rfl
    | some last =>
      -- A class without a closing brace would end with the body, and behind that no class begins.
      have hbehind := h.behind last (List.mem_of_getLast? hlast)
      obtain ⟨hstart, hinside, hclosing, -, -⟩ := hspan
      exact beq_false_of_ne (by omega)
  rw [h.length_eq, hclosed]
  rfl

theorem IsAligned.take_members_blank (h : state.IsAligned body) (hspan : span.IsIn body)
    (hplace : state.place ≤ span.start) :
    (state.blank span).members.take (state.blank span).place =
      state.members.take span.start ++ List.replicate (span.closing + 1 - span.start) ' ' := by
  have hlength := h.length_members hspan hplace
  obtain ⟨hstart, hinside, hclosing, -, -⟩ := hspan
  exact List.take_left' (length_blank (by omega) (by omega))

theorem IsAligned.blank (h : state.IsAligned body) (hspan : span.IsIn body)
    (hplace : state.place ≤ span.start) :
    (state.blank span).IsAligned body := by
  have hlength := h.length_members hspan hplace
  have hbehind : ∀ earlier ∈ state.spans, earlier.closing < span.start := fun earlier hmem =>
    Nat.lt_of_lt_of_le (h.behind earlier hmem) hplace
  have hisIn := List.forall_mem_append.mpr ⟨h.isIn, List.forall_mem_singleton.mpr hspan⟩
  obtain ⟨hstart, hinside, hclosing, -, -⟩ := hspan
  have hwithin : span.start ≤ state.members.length := by omega
  have hle : span.start ≤ span.closing + 1 := by omega
  refine ⟨fun place => ?_, ?_, ?_, hisIn, ?_, ?_⟩
  · have hcovers : (∃ found ∈ (state.blank span).spans, found.Covers place) ↔
        (span.start ≤ place ∧ place < span.closing + 1) ∨
          ∃ found ∈ state.spans, found.Covers place := by
      simp only [spans_blank, List.mem_append, List.mem_singleton, or_and_right, exists_or,
        exists_eq_left, ClassSpan.Covers, Nat.lt_succ_iff]
      exact or_comm
    rw [if_congr hcovers rfl rfl, ite_or, ← h.char_eq]
    exact getElem?_blank hwithin hle place
  · rw [spans_blank, List.getLast?_concat, Option.any_some, Blanking.blank]
    simp only [List.length_append, List.length_take, List.length_replicate, List.length_drop,
      hlength, beq_iff_eq]
    split_ifs <;> omega
  · exact List.pairwise_append.mpr ⟨h.ordered, List.pairwise_singleton _ _,
      fun earlier hmem last hlast =>
      List.mem_singleton.mp hlast ▸ hbehind earlier hmem⟩
  · intro earlier hmem
    rw [spans_blank, List.mem_append, List.mem_singleton] at hmem
    rw [place_blank, Nat.lt_succ_iff]
    rcases hmem with hmem | rfl
    · have hlt := hbehind earlier hmem
      omega
    · exact Nat.le_refl _
  · simp only [Blanking.blank, List.length_append, List.length_take, List.length_replicate]
    omega

/-- Behind the place that the loop has come to the members are as they were. -/
theorem IsAligned.drop_members (h : state.IsAligned body) : state.members.drop state.place =
    body.drop state.place := by
  refine List.ext_getElem? fun i => ?_
  have hcovers : ¬ ∃ span ∈ state.spans, span.Covers (state.place + i) := by
    rintro ⟨span, hmem, -, hle⟩
    have hlt := h.behind span hmem
    omega
  rw [List.getElem?_drop, List.getElem?_drop, h.char_eq, if_neg hcovers]

/-- Nothing is blanked out between the place that the loop has come to and the next class. -/
theorem IsAligned.take_members {there : Cursor} (h : state.IsAligned body)
    (hreaches : Reaches (cursorAt body state.place) there)
    (hplace : state.place ≤ body.length - there.left) :
    state.members.take (body.length - there.left) =
      state.members.take state.place ++ ((cursorAt body state.place).spanTo there).text := by
  obtain ⟨passed, hrest, -⟩ := hreaches
  have hmembers : state.members = (state.members.take state.place ++ passed) ++ there.rest := by
    rw [List.append_assoc]
    exact (List.take_append_drop state.place state.members).symm.trans
      (congrArg _ (h.drop_members.trans hrest))
  have hlength := congrArg List.length hrest
  rw [cursorAt, between_rest, List.length_drop, List.length_append, ← there.left_eq] at hlength
  have htake : (state.members.take state.place ++ passed).length = body.length - there.left := by
    rw [List.length_append, List.length_take_of_le h.place_le]
    omega
  rw [spanTo_text_of_rest hrest]
  exact (congrArg _ hmembers).trans (List.take_left' htake)

end Blanking

structure ClassSpan.IsOf (text : Text) (span : ClassSpan) (d : Declaration) : Prop where
  name_eq : span.name = d.name
  start_eq : span.start = text.length - d.start.left
  content_eq : span.content text = d.body
  isIn : span.IsIn text
  after_eq : cursorAt text (span.closing + 1) = d.after
  spaces_eq : d.start.left - d.after.left + (if d.isClosed then 0 else 1) =
    span.closing + 1 - span.start

theorem isClosed_declarationAt (hit : Hit Unit) :
    (declarationAt hit).isClosed = (closingFrom .code 1 0 hit.stop.rest).isSome := by
  rw [declarationAt]
  split
  · rename_i hclosing
    rw [hclosing]
    rfl
  · rename_i hclosing
    rw [hclosing]
    rfl

namespace IsSplit
variable (h : IsSplit text d hit front heading closing)
include h

theorem length_closing (hd : d = declarationAt hit) :
    closing.length + (if d.isClosed then 0 else 1) = 1 := by
  have hclosed : d.isClosed = (closingFrom .code 1 0 hit.stop.rest).isSome :=
    hd ▸ isClosed_declarationAt hit
  rw [hclosed, h.stop_eq]
  obtain ⟨rfl, hclosing⟩ | ⟨rfl, hafter, hopen⟩ := h.closing_eq
  · rw [List.singleton_append, hclosing]
    rfl
  · have hnone : closingFrom .code 1 0 d.body = none :=
      Option.eq_none_iff_forall_ne_some.mpr fun found hfound => hopen (closes_of_closingFrom hfound)
    rw [hafter, List.append_nil, List.append_nil, hnone]
    rfl

/-- The places that a class is found at, in the lengths of the pieces that its declaration splits
the text into. -/
theorem ofHit_eq (hd : d = declarationAt hit) : ClassSpan.ofHit text hit =
    ⟨d.name, front.length, front.length + heading.length + 1,
      front.length + heading.length + 1 + d.body.length⟩ := by
  have hname : d.name = hit.group () := hd ▸ declarationAt_name hit
  have hstart : text.length - hit.start.left = front.length := by
    rw [← h.startIn_eq, Declaration.startIn, hd, declarationAt_start]
  have hinside : text.length - hit.stop.left = front.length + heading.length + 1 := by
    rw [h.text_eq, h.start_eq, hit.stop.left_eq]
    simp only [List.length_append, List.length_cons]
    omega
  rw [ClassSpan.ofHit, h.matchingBrace_body, hname, hstart, hinside]

theorem length_start : d.start.left = heading.length + 1 + d.body.length + closing.length +
    d.after.left := by
  rw [d.start.left_eq, h.start_eq, h.stop_eq, d.after.left_eq]
  simp only [List.length_append, List.length_cons]
  omega

theorem length_text :
    text.length = front.length + heading.length + 1 + d.body.length + closing.length +
    d.after.left := by
  rw [h.text_eq, List.length_append, ← Cursor.left_eq, h.length_start]
  omega

theorem drop_text : text.drop (front.length + heading.length + 1) = d.body ++
    (closing ++ d.after.rest) := by
  have hlength : (front ++ heading ++ ['\x7b']).length = front.length + heading.length + 1 := by
    rw [List.length_append, List.length_append, List.length_singleton]
  rw [h.text_eq, h.start_eq, h.stop_eq, ← List.append_assoc, List.append_cons,
    List.drop_left' hlength]

theorem isIn_ofHit (hd : d = declarationAt hit) : (ClassSpan.ofHit text hit).IsIn text := by
  have hlength := h.length_text
  have hopened : text[front.length + heading.length]? = some '\x7b' := by
    rw [h.text_eq, h.start_eq, ← List.append_assoc,
      List.getElem?_append_right List.length_append.le, List.length_append, Nat.sub_self]
    rfl
  have hplace : text.length - hit.stop.left - 1 ≤ text.length := by omega
  have hclosed := (matchingBrace_isClosing hplace).2.2
  rw [h.matchingBrace_body] at hclosed
  rw [h.ofHit_eq hd]
  refine ⟨?_, Nat.le_add_right _ _, ?_, hopened, hclosed⟩
  · dsimp only
    omega
  · dsimp only
    omega

theorem cursorAt_after (hfound : Found (start text) d hit) :
    cursorAt text (front.length + heading.length + 1 + d.body.length + 1) = d.after := by
  have hlength := h.length_text
  have hafter := cursorAt_of_reaches hfound.reaches_after
  obtain ⟨rfl, -⟩ | ⟨rfl, hnil, -⟩ := h.closing_eq
  · rw [List.length_singleton] at hlength
    rwa [hlength, Nat.add_sub_cancel] at hafter
  · have hnone : d.after.left = 0 := by rw [d.after.left_eq, hnil, List.length_nil]
    rw [hnone, Nat.sub_zero] at hafter
    rw [List.length_nil, hnone] at hlength
    rw [cursorAt_of_length_le (by omega), hafter]

end IsSplit

/-- The span of a match is the one of its declaration. -/
theorem isOf_ofHit (hfound : Found (start text) d hit) :
    (ClassSpan.ofHit text hit).IsOf text d := by
  obtain ⟨front, heading, closing, h, -⟩ := exists_isSplit hfound
  have hisIn := h.isIn_ofHit hfound.eq
  rw [h.ofHit_eq hfound.eq] at hisIn ⊢
  refine ⟨rfl, ?_, ?_, hisIn, h.cursorAt_after hfound, ?_⟩
  · rw [← h.startIn_eq, Declaration.startIn]
  · simp only [ClassSpan.content, h.drop_text, Nat.add_sub_cancel_left, List.take_left]
  · have hclosing := h.length_closing hfound.eq
    rw [h.length_start]
    dsimp only
    omega

theorem isOf_of_searchFrom {place : Nat}
    (h : classPattern.searchFrom (cursorAt body place) = some hit) :
    (ClassSpan.ofHit body hit).IsOf body (declarationAt hit) :=
  isOf_ofHit ((found_of_searchFrom h).behind (reaches_cursorAt body place))

theorem place_le_of_searchFrom {place : Nat}
    (h : classPattern.searchFrom (cursorAt body place) = some hit) :
    place ≤ (ClassSpan.ofHit body hit).start := by
  have hspan := isOf_of_searchFrom h
  have hleft : (declarationAt hit).start.left ≤ body.length - place :=
    (found_of_searchFrom h).reaches.left_le.trans_eq (List.length_drop ..)
  obtain ⟨hstart, hinside, hclosing, -, -⟩ := hspan.isIn
  have heq := hspan.start_eq
  omega

theorem left_lt_of_searchFrom {place : Nat}
    (h : classPattern.searchFrom (cursorAt body place) = some hit) :
    (declarationAt hit).after.left < (cursorAt body place).left := by
  have hspan := isOf_of_searchFrom h
  have hleft := (found_of_searchFrom h).reaches.left_le
  have hspaces := hspan.spaces_eq
  obtain ⟨hstart, hinside, -, -, -⟩ := hspan.isIn
  split_ifs at hspaces
  · omega
  · omega

namespace Blanking
variable {state next last : Blanking} {span : ClassSpan} {ds : List Declaration}

/-- Everything that a round does. -/
theorem Steps.exists_span (h : Steps body state next) : ∃ span, next = state.blank span ∧
    state.Advances body next span := by
  obtain ⟨hit, hsearch, rfl⟩ := Option.map_eq_some_iff.mp h
  have hspan := isOf_of_searchFrom hsearch
  exact ⟨_, rfl, rfl, hspan.isIn, place_le_of_searchFrom hsearch, rfl, hspan.isIn.length_content_lt⟩

theorem Steps.isAligned (h : Steps body state next) (hstate : state.IsAligned body) :
    next.IsAligned body := by
  obtain ⟨span, rfl, hadvances⟩ := h.exists_span
  exact hstate.blank hadvances.isIn hadvances.place_le

theorem Arises.isAligned (h : Arises body state) : state.IsAligned body := by
  induction h with
  | refl => exact isAligned_begin body
  | tail _ hstep ih => exact hstep.isAligned ih

/-- The loop goes on from one state to another, in which it ends, and takes these declarations
out. -/
structure Ends (body : Text) (state last : Blanking) (ds : List Declaration) : Prop where
  steps : ReflTransGen (Steps body) state last
  done : last.next? body = none
  members_eq : last.members = state.members.take state.place ++
    blankedFrom (cursorAt body state.place) ds
  spans : ∃ added, last.spans = state.spans ++ added ∧ List.Forall₂ (ClassSpan.IsOf body) added ds

theorem Ends.nil (hstate : state.IsAligned body)
    (h : classPattern.searchFrom (cursorAt body state.place) = none) :
    Ends body state state [] where
  steps := .refl
  done := by rw [next?, h, Option.map_none]
  members_eq := by
    rw [blankedFrom, cursorAt, between_rest, ← hstate.drop_members, List.take_append_drop]
  spans := ⟨[], (List.append_nil _).symm, .nil⟩

theorem Ends.cons (hstate : state.IsAligned body)
    (h : classPattern.searchFrom (cursorAt body state.place) = some hit)
    (hends : Ends body (state.blank (.ofHit body hit)) last ds) :
    Ends body state last (declarationAt hit :: ds) := by
  have hstep : Steps body state (state.blank (.ofHit body hit)) := by
    rw [Steps, next?, h, Option.map_some]
  have hreaches := (found_of_searchFrom h).reaches
  have hspan := isOf_of_searchFrom h
  have hplace := place_le_of_searchFrom h
  generalize ClassSpan.ofHit body hit = span at hends hstep hspan hplace
  obtain ⟨added, hadded, hof⟩ := hends.spans
  refine ⟨.head hstep hends.steps, hends.done, ?_, span :: added, ?_, .cons hspan hof⟩
  · -- Up to the class the members are still those of the body, and behind it the next rounds go on.
    have htake := hstate.take_members hreaches (hspan.start_eq ▸ hplace)
    rw [← hspan.start_eq] at htake
    rw [hends.members_eq, hstate.take_members_blank hspan.isIn hplace, place_blank, hspan.after_eq,
      blankedFrom, hspan.spaces_eq, htake]
    simp only [List.append_assoc]
  · rw [hadded, spans_blank, List.append_assoc, List.singleton_append]

theorem exists_ends (n : Nat) (hstate : state.IsAligned body)
    (hn : (cursorAt body state.place).left ≤ n) :
    ∃ last, Ends body state last (declarationsFrom n (cursorAt body state.place)) := by
  induction n generalizing state with
  | zero =>
    refine ⟨state, .nil hstate (Option.eq_none_iff_forall_ne_some.mpr fun hit hsearch => ?_)⟩
    have hlt := left_lt_of_searchFrom hsearch
    omega
  | succ n ih =>
    rw [declarationsFrom]
    split
    · rename_i hit hsearch
      have hlt := left_lt_of_searchFrom hsearch
      have hspan := isOf_of_searchFrom hsearch
      have hnext := hstate.blank hspan.isIn (place_le_of_searchFrom hsearch)
      obtain ⟨last, hends⟩ := ih hnext (by rw [place_blank, hspan.after_eq]; omega)
      rw [place_blank, hspan.after_eq] at hends
      exact ⟨last, hends.cons hstate hsearch⟩
    · rename_i hsearch
      exact ⟨state, .nil hstate hsearch⟩

theorem exists_ends_begin (body : Text) : ∃ last, Arises body last ∧ last.next? body = none ∧
    last.members = blanked body (declarations body) ∧ List.Forall₂ (ClassSpan.IsOf body) last.spans
      (declarations body) := by
  have hcursor : cursorAt body (begin body).place = start body := rfl
  obtain ⟨last, hsteps, hdone, hmembers, added, hadded, hof⟩ :=
    exists_ends body.length (isAligned_begin body) (Nat.le_refl _)
  rw [hcursor] at hmembers hof
  refine ⟨last, hsteps, hdone, hmembers, ?_⟩
  rw [hadded]
  exact hof

theorem readBody_eq_toClass (hmembers : last.members = blanked body (declarations body))
    (hof : List.Forall₂ (ClassSpan.IsOf body) last.spans (declarations body)) {n : Nat}
    (hn : body.length < n) (name : Text) :
    readBody n name body = last.toClass body name := by
  obtain ⟨n, rfl⟩ : ∃ k, n = k + 1 := ⟨n - 1, by omega⟩
  have hinner : (declarations body).map (fun d => readBody n d.name d.body) =
      last.spans.map fun span => readBody ((span.content body).length + 1) span.name
        (span.content body) := by
    rw [← List.forall₂_eq_eq_eq, List.forall₂_map_left_iff, List.forall₂_map_right_iff]
    refine hof.flip.imp fun d span hspan => ?_
    have hshorter := hspan.isIn.length_content_lt
    rw [← hspan.name_eq, ← hspan.content_eq]
    exact readBody_enough _ (by omega) (Nat.lt_succ_self _)
  rw [readBody, toClass, hmembers, hinner]

theorem IsAligned.getElem?_body (h : state.IsAligned body) {place : Nat} {c : Char}
    (hc : state.members[place]? = some c)
    (hblank : Text.isBlank c = false) : body[place]? = some c ∧
    ∀ span ∈ state.spans, ¬ span.Covers place := by
  rw [h.char_eq] at hc
  split_ifs at hc with hcovers
  · obtain rfl := Option.some.inj hc
    exact absurd hblank (by decide)
  · exact ⟨hc, fun span hmem hcover => hcovers ⟨span, hmem, hcover⟩⟩

theorem IsAligned.isOutside (h : state.IsAligned body) {pattern : Pattern MemberPart}
    {hit : Hit MemberPart}
    (hhit : hit ∈ pattern.hits state.members) : state.IsOutside body hit :=
  fun _ _ hc hblank => h.getElem?_body (getElem?_of_mem_hits hhit hc) hblank

end Blanking

/-- In every state that the loop comes to, the members are the body with the classes that it has
found blanked out, and each round comes further and leaves less text to read. So the loop ends, and
the class is read from its last state. Nothing in its members comes from an inner class. -/
theorem readBody_blanking (body : Text) :
    (∀ state, Blanking.Arises body state → state.IsAligned body ∧
      ∀ next, state.next? body = some next → ∃ span, state.Advances body next span) ∧
    ∃ last, Blanking.Arises body last ∧ last.next? body = none ∧ last.members =
      blanked body (declarations body) ∧
      (∀ n name, body.length < n → readBody n name body = last.toClass body name) ∧
      (∀ span ∈ last.spans, (span.content body).length < body.length) ∧
      ∀ hit ∈ propertyPattern.hits last.members ++ methodPattern.hits last.members,
        last.IsOutside body hit := by
  constructor
  · intro state hstate
    refine ⟨hstate.isAligned, fun next hnext => ?_⟩
    obtain ⟨span, -, hadvances⟩ := Blanking.Steps.exists_span hnext
    exact ⟨span, hadvances⟩
  · obtain ⟨last, harises, hdone, hmembers, hof⟩ := Blanking.exists_ends_begin body
    have haligned := harises.isAligned
    refine ⟨last, harises, hdone, hmembers, fun n name hn => Blanking.readBody_eq_toClass hmembers
      hof hn name, fun span hspan => (haligned.isIn span hspan).length_content_lt, ?_⟩
    exact List.forall_mem_append.mpr ⟨fun hit hhit => haligned.isOutside hhit, fun hit hhit =>
      haligned.isOutside hhit⟩

/-- A class with another one in it, a property, and a class that is not closed. -/
def openBody : Text :=
  "class B \x7b ".toList ++ "class C \x7b\x7d \x7d\n".toList ++ "public A a \x7b".toList ++
    "get; set;\x7d\n".toList ++
    "class D \x7b void f() \x7b\x7d".toList

/-- What the loop ends with there: both classes are blanked out, and there is one space more than
the body has characters. -/
def openBlanking : Blanking :=
  ((Blanking.begin openBody).blank ⟨['B'], 0, 9, 21⟩).blank ⟨['D'], 46, 55, 67⟩

theorem readBody_blanking_openBody : openBlanking.IsAligned openBody ∧ openBlanking.next? openBody =
    none ∧
    openBlanking.members = List.replicate 22 ' ' ++
      '\n' :: ("public A a \x7b".toList ++ "get; set;\x7d\n".toList) ++
      List.replicate 22 ' ' ∧
    openBody.length = 67 ∧ openBlanking.members.length = 68 := by
  have hfirst : (Blanking.begin openBody).next? openBody =
    some ((Blanking.begin openBody).blank ⟨['B'], 0, 9, 21⟩) := by
    decide +kernel
  have hlast : ((Blanking.begin openBody).blank ⟨['B'], 0, 9, 21⟩).next? openBody =
    some openBlanking := by
    decide +kernel
  have harises : Blanking.Arises openBody openBlanking := .tail (.tail .refl hfirst) hlast
  have haligned := ((readBody_blanking openBody).1 openBlanking harises).1
  exact ⟨haligned, by decide +kernel, by decide +kernel, by decide +kernel, by decide +kernel⟩

end Visualforce.Apex
