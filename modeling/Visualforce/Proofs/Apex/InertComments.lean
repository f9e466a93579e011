import Visualforce.Proofs.Apex.RoundTrip

/-! # Comments in classes

A class with ordinary comments is read as the class without them. A comment that holds the front of
a declaration is not ordinary: the patterns of declarations are searched for in comments too.
-/
namespace Visualforce.Apex

theorem arePlain_append {first second : List Member} (hfirst : ArePlain first)
    (hsecond : ArePlain second) :
    ArePlain (first ++ second) := by
  induction first with
  | nil => exact hsecond
  | cons member first ih => exact ⟨hfirst.1, ih hfirst.2⟩

mutual
theorem arePlain_members : (entry : Entry) → entry.IsPlain → ArePlain entry.members
  | .filler filler, _ => by
    rw [Entry.members]
    trivial
  | .property signature, h => by
    rw [Entry.IsPlain] at h
    rw [Entry.members]
    exact ⟨h, trivial⟩
  | .method annotations signature parameters, h => by
    rw [Entry.IsPlain] at h
    rw [Entry.members]
    exact ⟨h, trivial⟩
  | .inner name entries, h => by
    rw [Entry.IsPlain] at h
    rw [Entry.members]
    exact ⟨⟨h.1, arePlain_membersOf entries h.2⟩, trivial⟩

theorem arePlain_membersOf : (entries : List Entry) → EntriesArePlain entries →
    ArePlain (membersOf entries)
  | [], _ => trivial
  | entry :: rest, h => by
    rw [EntriesArePlain] at h
    rw [membersOf]
    exact arePlain_append (arePlain_members entry h.1) (arePlain_membersOf rest h.2)
end

/-- Ordinary comments and blanks change nothing, in front of a class and between the members of any
class in it. -/
theorem read_comments {front : List Filler} {name : Text} {entries : List Entry}
    (hfront : ∀ filler ∈ front, filler.IsOrdinary) (h : (Entry.inner name entries).IsPlain)
    (fallback : Text) :
    read (front.flatMap Filler.source ++ (Entry.inner name entries).source) fallback =
      read (Member.inner name (membersOf entries)).source fallback := by
  have hmembers : (Member.inner name (membersOf entries)).IsPlain := by
    rw [Entry.IsPlain] at h
    exact ⟨h.1, arePlain_membersOf entries h.2⟩
  obtain ⟨outline, hplain, hsource, houtline⟩ := exists_entries hmembers
  have hread := read_entries (List.forall_mem_nil Filler.IsOrdinary) hplain fallback
  rw [hsource, houtline] at hread
  exact (read_entries hfront h fallback).trans hread.symm

/-- What stands in front of a class and in it, with words of declarations inside longer ones. -/
def noteFront : List Filler :=
  [.block " A subclass of Base, the republic, don't \x7b. ".toList, .blanks "\n".toList,
    .line " bob@example.org".toList]

def noteEntries : List Entry :=
  [.filler (.blanks "\n".toList), .property ⟨"public".toList, [], "Integer".toList, "count".toList⟩,
    .filler (.line " public: see (below);".toList),
    .inner "Item".toList [.filler (.block "class\x7d".toList), .method ["Future".toList]
      ⟨"private".toList, ["static".toList], "void".toList, "clear".toList⟩ "String key".toList],
    .filler (.block " end ".toList)]

def noteSource : Text :=
  "/* A subclass of Base, ".toList ++ "the republic, don't \x7b. */\n".toList ++
  "// bob@example.org\n".toList ++ "public class Note \x7b\n".toList ++
  "public Integer count ".toList ++ "\x7b get; set; \x7d".toList ++
  "// public: see (below);\n".toList ++ "public class Item \x7b".toList ++
  "/*class\x7d*/@Future ".toList ++ "private static void ".toList ++
  "clear(String key) \x7b \x7d\x7d".toList ++ "/* end */\x7d".toList

def bareSource : Text :=
  "public class Note \x7b\n".toList ++ "public Integer count ".toList ++
  "\x7b get; set; \x7d\n".toList ++ "public class Item \x7b\n".toList ++
  "@Future private static void ".toList ++ "clear(String key) \x7b \x7d\n\x7d\n\x7d".toList

theorem read_comments_note : (∀ filler ∈ noteFront, filler.IsOrdinary) ∧
    (Entry.inner "Note".toList noteEntries).IsPlain ∧
    read noteSource [] = read bareSource [] := by
  have hfront : ∀ filler ∈ noteFront, filler.IsOrdinary := by
    have hblock :
      (Filler.block " A subclass of Base, the republic, don't \x7b. ".toList).IsOrdinary :=
      ⟨by decide, by decide +kernel⟩
    have hline : (Filler.line " bob@example.org".toList).IsOrdinary :=
      ⟨by decide, by decide +kernel⟩
    exact List.forall_mem_cons.mpr
      ⟨hblock, List.forall_mem_cons.mpr ⟨isOrdinary_newline, List.forall_mem_singleton.mpr hline⟩⟩
  have hinteger : HasTypeShape ("Integer".toList ++ ([] ++ [])) :=
    .mk (by decide) (by decide) (.inl rfl) (.inl rfl)
  have hvoid : HasTypeShape ("void".toList ++ ([] ++ [])) :=
    .mk (by decide) (by decide) (.inl rfl) (.inl rfl)
  have hplain : (Entry.inner "Note".toList noteEntries).IsPlain := by
    refine ⟨⟨by decide, by decide, by decide⟩, isOrdinary_newline, ?_,
      ⟨by decide, by decide +kernel⟩, ⟨⟨by decide, by decide, by decide⟩,
      ⟨by decide, by decide +kernel⟩, ?_, trivial⟩, ⟨by decide, by decide +kernel⟩, trivial⟩
    · exact ⟨by decide, by decide, ⟨hinteger, by decide, by decide, by decide⟩, by decide, by
        decide, by decide⟩
    · refine ⟨List.forall_mem_singleton.mpr ⟨by decide, by decide, by decide⟩, ?_, ?_⟩
      · exact ⟨by decide, by decide, ⟨hvoid, by decide, by decide, by decide⟩, by decide, by
          decide, by decide⟩
      · exact ⟨by decide, by decide, by decide, by decide, by decide⟩
  have hsource : noteFront.flatMap Filler.source ++ (Entry.inner "Note".toList noteEntries).source =
    noteSource := by
    decide +kernel
  have hbare : (Member.inner "Note".toList (membersOf noteEntries)).source = bareSource := by
    decide +kernel
  have hread := read_comments hfront hplain []
  rw [hsource, hbare] at hread
  exact ⟨hfront, hplain, hread⟩

/-- A declaration in a comment is read as one. -/
def strayEntries : List Entry :=
  [.filler (.line " public Integer old \x7b get; set; \x7d".toList),
    .property ⟨"public".toList, [], "Integer".toList, "x".toList⟩]

theorem read_strayProperty : read (Entry.inner "A".toList strayEntries).source [] ≠
    read (Member.inner "A".toList (membersOf strayEntries)).source [] := by
  intro h
  have hnames := congrArg (fun found => found.properties.map Property.name) h
  exact absurd hnames (by decide +kernel)

end Visualforce.Apex
