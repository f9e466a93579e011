import Visualforce.Text.Blank
import Visualforce.Text.Word
import Visualforce.Text.Fold

/-! # Patterns over text

A pattern is matched at a cursor, a place in a text that also knows the character before it. The
alternatives of a pattern are tried in a fixed order: the first of two before the second, a greedy
repetition from its longest form down and a lazy one from its shortest form up. A sweep is a
repetition in its longest form only. The first way that lets everything after it match as well is
the match.
-/
namespace Visualforce

/-- A place in a text; `left` counts what lies ahead. -/
structure Cursor where
  before : Option Char
  rest : Text
  left : Nat
  left_eq : left = rest.length

namespace Cursor

def start (text : Text) : Cursor := ⟨none, text, text.length, rfl⟩

def next? (here : Cursor) : Option (Char × Cursor) :=
  match h : here.rest with
  | [] => none
  | c :: rest => some (c, ⟨some c, rest, here.left - 1, by simp [here.left_eq, h]⟩)

/-- Whether exactly one of the two neighbouring characters is a word character. -/
def atWordEdge (here : Cursor) : Bool :=
  here.before.any Text.isWord != here.rest.head?.any Text.isWord

theorem left_lt_of_next? {here next : Cursor} {c : Char} (h : here.next? = some (c, next)) :
    next.left < here.left := by
  obtain ⟨before, rest, left, rfl⟩ := here
  cases rest with
  | nil => simp [next?] at h
  | cons d rest =>
    simp only [next?, Option.some.injEq, Prod.mk.injEq] at h
    obtain ⟨-, rfl⟩ := h
    simp

end Cursor

/-- The `length` characters at the front of `source`. -/
structure Span where
  source : Text
  length : Nat

def Span.text (span : Span) : Text := span.source.take span.length

def Cursor.spanTo (here stop : Cursor) : Span := ⟨here.rest, here.left - stop.left⟩

/-- Patterns whose groups are named by `κ`. A repetition is of whole units: each unit is taken in
the first way it matches. -/
inductive Pattern (κ : Type) where
  | empty
  | one (accepts : Char → Bool)
  | seq (first second : Pattern κ)
  | alt (first second : Pattern κ)
  | many (greedy : Bool) (item : Pattern κ)
  | sweep (accepts : Char → Bool)
  | group (key : κ) (body : Pattern κ)
  | guard (holds : Cursor → Bool)

namespace Pattern

variable {κ : Type}

/-- A cursor with the groups closed so far, the latest first. -/
structure Place (κ : Type) where
  cursor : Cursor
  groups : List (κ × Span)

/-- The places after no, one, two, … units, the last one first. -/
def stations (step : Place κ → Option (Place κ)) : Nat → Place κ → List (Place κ) → List (Place κ)
  | 0, here, passed => here :: passed
  | n + 1, here, passed =>
    match step here with
    | some next =>
      if next.cursor.left < here.cursor.left then stations step n next (here :: passed)
      else here :: passed
    | none => here :: passed

/-- Continues after as few units as possible. -/
def shortest (step : Place κ → Option (Place κ)) (goOn : Place κ → Option (Place κ)) :
    Nat → Place κ → Option (Place κ)
  | 0, here => goOn here
  | n + 1, here =>
    match goOn here with
    | some last => some last
    | none =>
      match step here with
      | some next =>
        if next.cursor.left < here.cursor.left then shortest step goOn n next else none
      | none => none

/-- The place after all characters ahead that are accepted. -/
def skipAll (accepts : Char → Bool) : Nat → Cursor → Cursor
  | 0, here => here
  | n + 1, here =>
    match here.next? with
    | some (c, next) => if accepts c then skipAll accepts n next else here
    | none => here

/-- The last place of the first way to match the pattern at `here` and go on with `goOn`. -/
def run : Pattern κ → Place κ → (Place κ → Option (Place κ)) → Option (Place κ)
  | empty, here, goOn => goOn here
  | one accepts, here, goOn =>
    match here.cursor.next? with
    | some (c, next) => if accepts c then goOn ⟨next, here.groups⟩ else none
    | none => none
  | seq first second, here, goOn => first.run here fun middle => second.run middle goOn
  | alt first second, here, goOn =>
    match first.run here goOn with
    | some last => some last
    | none => second.run here goOn
  | many true item, here, goOn =>
    (stations (fun p => item.run p some) here.cursor.left here []).findSome? goOn
  | many false item, here, goOn =>
    shortest (fun p => item.run p some) goOn here.cursor.left here
  | sweep accepts, here, goOn =>
    goOn ⟨skipAll accepts here.cursor.left here.cursor, here.groups⟩
  | group key body, here, goOn =>
    body.run here fun last =>
      goOn ⟨last.cursor, (key, here.cursor.spanTo last.cursor) :: last.groups⟩
  | guard holds, here, goOn => if holds here.cursor then goOn here else none

instance : Append (Pattern κ) := ⟨seq⟩

def char (c : Char) : Pattern κ := one (· == c)

/-- The given characters one after the other. -/
def exactly (text : Text) : Pattern κ := text.foldr (fun c after => char c ++ after) empty

/-- The given characters up to case. -/
def caseless (text : Text) : Pattern κ :=
  text.foldr (fun c after => one (Text.sameUpToCase c) ++ after) empty

def literal (text : String) : Pattern κ := exactly text.toList

def anyCase (text : String) : Pattern κ := caseless text.toList

def oneOf (characters : String) : Pattern κ := one (characters.toList.contains ·)

def noneOf (characters : String) : Pattern κ := one (!characters.toList.contains ·)

def anyChar : Pattern κ := one fun _ => true

/-- The first alternative that leads to a match. -/
def firstOf : List (Pattern κ) → Pattern κ
  | [] => guard fun _ => false
  | [last] => last
  | first :: others => alt first (firstOf others)

def maybe (item : Pattern κ) : Pattern κ := alt item empty

def star (item : Pattern κ) : Pattern κ := many true item

def plus (item : Pattern κ) : Pattern κ := item ++ many true item

def starLazy (item : Pattern κ) : Pattern κ := many false item

def plusLazy (item : Pattern κ) : Pattern κ := item ++ many false item

def blank : Pattern κ := one Text.isBlank

def wordChar : Pattern κ := one Text.isWord

def wordEdge : Pattern κ := guard Cursor.atWordEdge

end Pattern
end Visualforce
