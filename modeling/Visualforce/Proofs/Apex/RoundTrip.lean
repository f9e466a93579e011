import Visualforce.Proofs.Apex.Nesting

/-! # Reading what is written

The source of a plain outline is read as the class that the outline describes: its declarations are
those of its inner classes, and what remains when they are blanked out are the lines of its other
members.
-/
namespace Visualforce.Apex
open Pattern Cursor

variable {before : Option Char} {rest : Text}

section Search
variable {κ : Type} {pattern : Pattern κ} {passed : Text}

theorem searchFrom_of_quiet (h : Quiet pattern before passed rest) :
    pattern.searchFrom (between before (passed ++ rest)) =
      pattern.searchFrom (between (behind before passed) rest) := by
  induction passed generalizing before with
  | nil => rfl
  | cons c passed ih =>
    rw [behind_cons, ← ih h.2]
    have hnone : pattern.matchAt (between before (c :: passed ++ rest)) = none := h.1
    rw [searchFrom, between_left, List.cons_append, List.length_cons, searchWithin,
      ← List.cons_append, hnone]
    rfl

theorem searchFrom_of_matchAt {here : Cursor} {hit : Hit κ} (h : pattern.matchAt here = some hit) :
    pattern.searchFrom here = some hit := by
  rw [searchFrom]
  cases here.left with
  | zero => exact h
  | succ n => rw [searchWithin, h]

theorem searchFrom_end (h : pattern.matchAt (between before []) = none) :
    pattern.searchFrom (between before []) = none := h

theorem left_le_of_searchWithin {n : Nat} {here : Cursor} {hit : Hit κ}
    (h : pattern.searchWithin n here = some hit) :
    hit.start.left ≤ here.left := (reaches_of_searchWithin h).1.left_le

theorem skip_append (before : Option Char) (passed rest : Text) :
    skip passed.length (between before (passed ++ rest)) = between (behind before passed) rest := by
  induction passed generalizing before with
  | nil => rfl
  | cons c passed ih => exact ih (some c)

end Search

theorem declarationAt_eq {hit : Hit Unit} {body : Text}
    (hstop : hit.stop = between (some '\x7b') (body ++ '\x7d' :: rest))
    (hbody : IsBalanced body) :
    declarationAt hit = ⟨hit.start, between (some '\x7d') rest, hit.group (), body, true⟩ := by
  have hskip : skip (body.length + 1) (between (some '\x7b') (body ++ '\x7d' :: rest)) =
    between (some '\x7d') rest := by
    have hall := skip_append (some '\x7b') (body ++ ['\x7d']) rest
    rw [behind_concat, List.append_assoc, List.length_append] at hall
    exact hall
  rw [declarationAt, hstop, between_rest, closingFrom_of_isBalanced hbody, Nat.zero_add]
  simp only [hskip, List.take_left]

theorem declarationAt_start (hit : Hit Unit) : (declarationAt hit).start = hit.start := by
  rw [declarationAt]
  split
  · rfl
  · rfl

/-- The declarations ahead have these names and bodies, and when they are blanked out this
remains. -/
def FindsClasses (n : Nat) (here : Cursor) (remaining : Text) (found : List (Text × Text)) : Prop :=
  blankedFrom here (declarationsFrom n here) = remaining ∧
    (declarationsFrom n here).map (fun declaration => (declaration.name, declaration.body)) = found

namespace FindsClasses

variable {n : Nat} {passed remaining : Text} {found : List (Text × Text)}

theorem nil (hbefore : before.any Text.isWord = false) : FindsClasses n (between before []) []
    [] := by
  have hnone : classPattern.searchFrom (between before []) = none :=
    searchFrom_end (matchAt_class_edge hbefore nofun)
  have hfound : declarationsFrom n (between before []) = [] := by
    cases n with
    | zero => rfl
    | succ n => rw [declarationsFrom, hnone]
  rw [FindsClasses, hfound]
  exact ⟨rfl, rfl⟩

theorem of_quiet (hquiet : Quiet classPattern before passed rest)
    (h : FindsClasses n (between (behind before passed) rest) remaining found) :
    FindsClasses n (between before (passed ++ rest)) (passed ++ remaining) found := by
  have hsame : declarationsFrom n (between before (passed ++ rest)) =
      declarationsFrom n (between (behind before passed) rest) := by
    cases n with
    | zero => rfl
    | succ n => rw [declarationsFrom, declarationsFrom, searchFrom_of_quiet hquiet]
  obtain ⟨rfl, hfound⟩ := h
  rw [FindsClasses, hsame]
  refine ⟨?_, hfound⟩
  cases hdeclared : declarationsFrom n (between (behind before passed) rest) with
  | nil => rfl
  | cons declaration others =>
    have hstart : declaration.start.left ≤ rest.length := by
      cases n with
      | zero => cases hdeclared
      | succ n =>
        rw [declarationsFrom] at hdeclared
        split at hdeclared
        · rename_i hit hsearch
          rw [← (List.cons.inj hdeclared).1, declarationAt_start]
          exact left_le_of_searchWithin hsearch
        · cases hdeclared
    simp only [blankedFrom, spanTo_append before (behind before passed) passed hstart,
      List.append_assoc]

/-- The search comes to the head of a class and goes on behind its closing brace. -/
theorem of_hit {hit : Hit Unit} {text body : Text}
    (hmatch : classPattern.matchAt (between before (text ++ rest)) = some hit)
    (hstart : hit.start = between before (text ++ rest))
    (hstop : hit.stop = between (some '\x7b') (body ++ '\x7d' :: rest)) (hbody : IsBalanced body)
    (h : FindsClasses n (between (some '\x7d') rest) remaining found) :
    FindsClasses (n + 1) (between before (text ++ rest))
      (List.replicate text.length ' ' ++ remaining)
      ((hit.group (), body) :: found) := by
  have hlength : (text ++ rest).length - rest.length + 0 = text.length := by simp
  have hempty : ((between before (text ++ rest)).spanTo (between before (text ++ rest))).text =
    [] :=
    spanTo_text before before [] (text ++ rest)
  obtain ⟨rfl, rfl⟩ := h
  rw [FindsClasses, declarationsFrom, searchFrom_of_matchAt hmatch]
  simp only [declarationAt_eq hstop hbody, blankedFrom, hstart, hempty, between_left, if_true,
    hlength, List.nil_append, List.map_cons, and_self]

end FindsClasses

/-- From a place behind no word the search for classes passes the text with these names and
bodies. -/
structure Declares (text shown : Text) (classes : List (Text × Text)) : Prop where
  finds : ∀ before n rest remaining found, before.any Text.isWord = false → IsAhead rest →
    (∀ after, after.any Text.isWord = false → FindsClasses n (between after rest) remaining found) →
    FindsClasses (n + classes.length) (between before (text ++ rest)) (shown ++ remaining)
      (classes ++ found)
  length_le : classes.length ≤ text.length

namespace Declares

variable {first second text shown others : Text} {classes more : List (Text × Text)}

theorem nil : Declares [] [] [] :=
  ⟨fun before _ _ _ _ hbefore _ h => h before hbefore, Nat.le_refl 0⟩

theorem append (hfirst : Declares first shown classes) (hsecond : Declares second others more)
    (hahead : KeepsAhead second) : Declares (first ++ second) (shown ++ others)
    (classes ++ more) := by
  constructor
  · intro before n rest remaining found hbefore hrest h
    have hlength : n + (classes ++ more).length = n + more.length + classes.length := by
      rw [List.length_append]
      omega
    rw [hlength, List.append_assoc, List.append_assoc, List.append_assoc]
    exact hfirst.finds before _ _ _ _ hbefore (hahead rest hrest) fun after hafter =>
      hsecond.finds after n rest remaining found hafter hrest h
  · rw [List.length_append, List.length_append]
    exact Nat.add_le_add hfirst.length_le hsecond.length_le

theorem of_quiet (hquiet : ∀ before rest, before.any Text.isWord = false → IsAhead rest →
    Quiet classPattern before text rest)
    (hbehind : ∀ before, before.any Text.isWord = false → (behind before text).any Text.isWord =
    false) :
    Declares text text [] :=
  ⟨fun before _ rest _ _ hbefore hrest h => .of_quiet (hquiet before rest hbefore hrest)
    (h _ (hbehind before hbefore)), Nat.zero_le _⟩

end Declares

/-- A class is passed as one declaration. -/
theorem declares_class {name body : Text} (h : IsIdentifier name) (hbody : IsBalanced body) :
    Declares (classHead name ++ body ++ ['\x7d'])
      (List.replicate (classHead name ++ body ++ ['\x7d']).length ' ')
      [(name, body)] := by
  constructor
  · intro before n rest remaining found hbefore _ hmore
    have hsource : classHead name ++ body ++ ['\x7d'] ++ rest = classHead name ++
      (body ++ '\x7d' :: rest) := by
      simp only [List.append_assoc, List.singleton_append]
    obtain ⟨hit, hmatch, hstart, hstop, hgroup⟩ :=
      exists_matchAt_class h hbefore (body ++ '\x7d' :: rest)
    rw [← hsource] at hmatch hstart
    have hfinds := FindsClasses.of_hit hmatch hstart hstop hbody (hmore _ (by decide))
    rw [hgroup] at hfinds
    exact hfinds
  · rw [List.length_append]
    exact Nat.le_add_left 1 _

/-- The names and the entries of inner classes. -/
def Entry.inners : Entry → List (Text × List Entry)
  | .inner name entries => [(name, entries)]
  | _ => []

/-- The names and the bodies of the inner classes. -/
def bodiesOf (entries : List Entry) : List (Text × Text) :=
  (entries.flatMap Entry.inners).map fun inner => (inner.1, entriesSource inner.2)

theorem declares_signature {signature : Signature} {annotations : List Text} {ending : Text}
    (h : signature.IsPlain)
    (hannotations : ∀ name ∈ annotations, IsIdentifier name) (hending : IsLineEnd ending) :
    Declares (annotationsSource annotations ++ (signature.source ++ (ending ++ ['\x7d'])))
      (annotationsSource annotations ++ (signature.source ++ (ending ++ ['\x7d']))) [] := by
  refine .of_quiet (fun _ _ _ _ => quiet_class_signature h hannotations hending) fun before _ => ?_
  simp only [← List.append_assoc]
  exact isWord_behind_concat (by decide) before

theorem declares_entry {entry : Entry} (h : entry.IsPlain) :
    Declares entry.source entry.shown (bodiesOf [entry]) := by
  cases entry with
  | filler filler =>
    rw [Entry.IsPlain] at h
    exact .of_quiet (fun _ _ => quiet_class_filler h) fun _ => isWord_behind_filler h
  | property signature =>
    rw [Entry.IsPlain] at h
    change Declares (Member.property signature).source (Member.property signature).source []
    rw [property_source]
    exact declares_signature h (List.forall_mem_nil _) isLineEnd_accessors
  | method annotations signature parameters =>
    rw [Entry.IsPlain] at h
    change Declares (Member.method annotations signature parameters).source
      (Member.method annotations signature parameters).source []
    rw [method_source]
    exact declares_signature h.2.1 h.1 (isLineEnd_parameters h.2.2)
  | inner name entries =>
    rw [Entry.IsPlain] at h
    rw [Entry.shown, Entry.source]
    exact declares_class h.1 (isBalanced_entries entries h.2)

theorem declares_entries {entries : List Entry} (h : EntriesArePlain entries) :
    Declares (entriesSource entries) (entries.flatMap Entry.shown) (bodiesOf entries) ∧
      KeepsAhead (entriesSource entries) := by
  induction entries with
  | nil => exact ⟨.nil, fun _ hrest => hrest⟩
  | cons entry entries ih =>
    rw [EntriesArePlain] at h
    obtain ⟨hrest, hahead⟩ := ih h.2
    have hbodies : bodiesOf (entry :: entries) = bodiesOf [entry] ++ bodiesOf entries := by
      simp [bodiesOf]
    rw [entriesSource, hbodies]
    exact ⟨(declares_entry h.1).append hrest hahead, (keepsAhead_source h.1).append hahead⟩

/-- A body is read as the members among what it shows, and as its inner classes. -/
theorem readBody_of_declares {body shown : Text} {classes : List (Text × Text)}
    (h : Declares body shown classes) (fuel : Nat)
    (name : Text) : readBody (fuel + 1) name body =
      .mk name ((propertyPattern.hits shown).map propertyOf)
        ((methodPattern.hits shown).map methodOf)
        (classes.map fun inner => readBody fuel inner.1 inner.2) := by
  obtain ⟨n, hn⟩ := Nat.exists_eq_add_of_le' h.length_le
  have hfinds := h.finds none n [] [] [] rfl isAhead_nil fun after hafter => .nil hafter
  rw [← hn, List.append_nil, List.append_nil, List.append_nil] at hfinds
  obtain ⟨hblanked, hfound⟩ := hfinds
  have hshown : blanked body (declarations body) = shown := hblanked
  have hclasses :
    (declarations body).map (fun declaration => (declaration.name, declaration.body)) = classes :=
    hfound
  rw [readBody]
  simp only [hshown, ← hclasses, List.map_map]
  rfl

theorem length_source_le {entries : List Entry} {entry : Entry} (h : entry ∈ entries) :
    entry.source.length ≤ (entriesSource entries).length := by
  induction entries with
  | nil => cases h
  | cons first entries ih =>
    rw [entriesSource, List.length_append]
    rcases List.mem_cons.mp h with rfl | h
    · omega
    · have hentry := ih h
      omega

theorem mem_of_mem_inners {entries : List Entry} {inner : Text × List Entry}
    (h : inner ∈ entries.flatMap Entry.inners) :
    .inner inner.1 inner.2 ∈ entries := by
  obtain ⟨entry, hentry, hinner⟩ := List.mem_flatMap.mp h
  cases entry with
  | inner name inside =>
    rw [List.mem_singleton.mp hinner]
    exact hentry
  | filler filler => cases hinner
  | property signature => cases hinner
  | method annotations signature parameters => cases hinner

theorem classesOf_append (first second : List Member) :
    classesOf (first ++ second) = classesOf first ++ classesOf second := by
  induction first with
  | nil => rfl
  | cons member first ih => rw [List.cons_append, classesOf, ih, classesOf, List.append_assoc]

theorem classesOf_membersOf (entries : List Entry) : classesOf (membersOf entries) =
    (entries.flatMap Entry.inners).map fun inner => described inner.1 (membersOf inner.2) := by
  induction entries with
  | nil => rfl
  | cons entry entries ih =>
    rw [membersOf, classesOf_append, ih, List.flatMap_cons, List.map_append]
    refine congrArg (· ++ _) ?_
    cases entry with
    | filler filler => rfl
    | property signature => rfl
    | method annotations signature parameters => rfl
    | inner name inside =>
      rw [Entry.members, classesOf, Member.classes]
      rfl

/-- The induction is on the fuel: the body of an inner class is shorter than what it stands in. -/
theorem readBody_entriesSource {fuel : Nat} {entries : List Entry} (name : Text)
    (h : EntriesArePlain entries)
    (hfuel : (entriesSource entries).length < fuel) :
    readBody fuel name (entriesSource entries) = described name (membersOf entries) := by
  induction fuel generalizing name entries with
  | zero => exact absurd hfuel (Nat.not_lt_zero _)
  | succ fuel ih =>
    have hinners : ∀ inner ∈ entries.flatMap Entry.inners,
        readBody fuel inner.1 (entriesSource inner.2) = described inner.1 (membersOf inner.2) := by
      intro inner hinner
      have hmem := mem_of_mem_inners hinner
      have hplain := entriesArePlain_iff.mp h _ hmem
      have hlength := length_source_le hmem
      rw [Entry.IsPlain] at hplain
      rw [Entry.source, List.length_append, List.length_append, List.length_singleton] at hlength
      exact ih inner.1 hplain.2 (by omega)
    have hclasses : (bodiesOf entries).map (fun inner => readBody fuel inner.1 inner.2) =
      classesOf (membersOf entries) := by
      rw [classesOf_membersOf, bodiesOf, List.map_map]
      exact List.map_congr_left hinners
    rw [readBody_of_declares (declares_entries h).1, properties_hits h, methods_hits h, hclasses]
    rfl

theorem quiet_class_fillers {front : List Filler} (hfront : ∀ filler ∈ front, filler.IsOrdinary)
    (hbefore : before.any Text.isWord = false) (hrest : IsAhead rest) :
    Quiet classPattern before (front.flatMap Filler.source) rest ∧
      (behind before (front.flatMap Filler.source)).any Text.isWord = false ∧
        KeepsAhead (front.flatMap Filler.source) := by
  induction front generalizing before with
  | nil => exact ⟨trivial, hbefore, fun _ h => h⟩
  | cons filler front ih =>
    obtain ⟨hfiller, hfillers⟩ := List.forall_mem_cons.mp hfront
    obtain ⟨hquiet, hbehind, hahead⟩ := ih hfillers (isWord_behind_filler hfiller hbefore)
    rw [List.flatMap_cons, behind_append]
    exact ⟨.append (quiet_class_filler hfiller hbefore (hahead rest hrest)) hquiet, hbehind,
      (keepsAhead_filler hfiller).append hahead⟩

theorem read_class {front name body : Text} (h : IsIdentifier name) (hbody : IsBalanced body)
    (hquiet : Quiet classPattern none front (classHead name ++ body ++ ['\x7d']))
    (hbefore : (behind none front).any Text.isWord = false) (fallback : Text) :
    ∃ fuel, body.length < fuel ∧ read (front ++ (classHead name ++ body ++ ['\x7d'])) fallback =
      readBody fuel name body := by
  obtain ⟨hit, hmatch, -, hstop, hgroup⟩ := exists_matchAt_class h hbefore (body ++ ['\x7d'])
  rw [← List.append_assoc] at hmatch
  have hsearch : classPattern.search (front ++ (classHead name ++ body ++ ['\x7d'])) = some hit :=
    (searchFrom_of_quiet hquiet).trans (searchFrom_of_matchAt hmatch)
  refine ⟨(front ++ (classHead name ++ body ++ ['\x7d'])).length + 1, ?_, ?_⟩
  · simp only [List.length_append]
    omega
  · rw [read, hsearch]
    simp only [declarationAt_eq hstop hbody, hgroup]

/-- A class is read as what its members say, whatever ordinary comments stand in front of it and in
it. -/
theorem read_entries {front : List Filler} {name : Text} {entries : List Entry}
    (hfront : ∀ filler ∈ front, filler.IsOrdinary) (h : (Entry.inner name entries).IsPlain)
    (fallback : Text) :
    read (front.flatMap Filler.source ++ (Entry.inner name entries).source) fallback =
      described name (membersOf entries) := by
  have hahead : IsAhead (Entry.inner name entries).source := by
    have hall := keepsAhead_source h [] isAhead_nil
    rwa [List.append_nil] at hall
  rw [Entry.IsPlain] at h
  have hnone : (none : Option Char).any Text.isWord = false := rfl
  obtain ⟨hquiet, hbefore, -⟩ := quiet_class_fillers hfront hnone hahead
  rw [Entry.source] at hquiet ⊢
  obtain ⟨fuel, hfuel, hread⟩ :=
    read_class h.1 (isBalanced_entries entries h.2) hquiet hbefore fallback
  rw [hread]
  exact readBody_entriesSource name h.2 hfuel

mutual
/-- A member as it is written without comments. -/
def Member.entry : Member → Entry
  | .property signature => .property signature
  | .method annotations signature parameters => .method annotations signature parameters
  | .inner name members => .inner name (.filler (.blanks ['\n']) :: entriesOf members)

def entriesOf : List Member → List Entry
  | [] => []
  | member :: rest => member.entry :: .filler (.blanks ['\n']) :: entriesOf rest
end

mutual
theorem entry_source : (member : Member) → member.entry.source = member.source
  | .property signature => by rw [Member.entry, Entry.source]
  | .method annotations signature parameters => by rw [Member.entry, Entry.source]
  | .inner name members => by
    rw [Member.entry, Entry.source, entriesSource, Entry.source, entriesOf_source members,
      Member.source]
    rfl

theorem entriesOf_source : (members : List Member) → entriesSource (entriesOf members) =
    membersSource members
  | [] => rfl
  | member :: rest => by
    rw [entriesOf, entriesSource, entriesSource, entry_source member, Entry.source,
      entriesOf_source rest, membersSource]
    rfl
end

mutual
theorem entry_members : (member : Member) → member.entry.members = [member]
  | .property signature => by rw [Member.entry, Entry.members]
  | .method annotations signature parameters => by rw [Member.entry, Entry.members]
  | .inner name members => by
    rw [Member.entry, Entry.members, membersOf, Entry.members, membersOf_entriesOf members]
    rfl

theorem membersOf_entriesOf : (members : List Member) → membersOf (entriesOf members) = members
  | [] => rfl
  | member :: rest => by
    rw [entriesOf, membersOf, membersOf, entry_members member, Entry.members,
      membersOf_entriesOf rest]
    rfl
end

theorem isOrdinary_newline : (Filler.blanks ['\n']).IsOrdinary := by
  have hblank : ∀ c ∈ ['\n'], Text.isBlank c := by decide
  exact hblank

mutual
theorem isPlain_entry : (member : Member) → member.IsPlain → member.entry.IsPlain
  | .property signature, h => by
    rw [Member.IsPlain] at h
    rwa [Member.entry, Entry.IsPlain]
  | .method annotations signature parameters, h => by
    rw [Member.IsPlain] at h
    rwa [Member.entry, Entry.IsPlain]
  | .inner name members, h => by
    rw [Member.IsPlain] at h
    rw [Member.entry, Entry.IsPlain, EntriesArePlain, Entry.IsPlain]
    exact ⟨h.1, isOrdinary_newline, entriesArePlain_entriesOf members h.2⟩

theorem entriesArePlain_entriesOf : (members : List Member) → ArePlain members →
    EntriesArePlain (entriesOf members)
  | [], _ => trivial
  | member :: rest, h => by
    rw [ArePlain] at h
    rw [entriesOf, EntriesArePlain, EntriesArePlain, Entry.IsPlain]
    exact ⟨isPlain_entry member h.1, isOrdinary_newline, entriesArePlain_entriesOf rest h.2⟩
end

/-- A plain outline is written with line feeds between its members and nothing else. -/
theorem exists_entries {name : Text} {members : List Member}
    (h : (Member.inner name members).IsPlain) :
    ∃ entries, (Entry.inner name entries).IsPlain ∧ (Entry.inner name entries).source =
      (Member.inner name members).source ∧
      membersOf entries = members := by
  have hentry : (Member.inner name members).entry =
    .inner name (.filler (.blanks ['\n']) :: entriesOf members) := by
    rw [Member.entry]
  refine ⟨_, hentry ▸ isPlain_entry _ h, hentry ▸ entry_source _, ?_⟩
  rw [membersOf, Entry.members, membersOf_entriesOf]
  rfl

/-- Reading a class undoes writing it. -/
theorem read_source {name : Text} {members : List Member} (h : (Member.inner name members).IsPlain)
    (fallback : Text) :
    read (Member.inner name members).source fallback = described name members := by
  obtain ⟨entries, hplain, hsource, hmembers⟩ := exists_entries h
  have hread := read_entries (List.forall_mem_nil Filler.IsOrdinary) hplain fallback
  rw [hsource, hmembers] at hread
  exact hread

/-- A class with members of every kind, among them a class that holds another one. -/
def cart : List Member :=
  [.property ⟨"public".toList, ["static".toList, "final".toList], "Map<String, List<Item>>".toList,
    "items".toList⟩, .method ["AuraEnabled".toList, "TestVisible".toList]
    ⟨"GLOBAL".toList, ["virtual".toList], "Item[]".toList, "find".toList⟩
      "String key, Integer limit".toList,
    .inner "Item".toList [.property ⟨"private".toList, [], "Integer".toList, "count".toList⟩,
    .inner "Note".toList []], .method [] ⟨"public".toList, [], "void".toList, "clear".toList⟩ []]

def cartSource : Text :=
  "public class Cart \x7b\n".toList ++
  "public static final ".toList ++ "Map<String, List<Item>> ".toList ++
  "items \x7b get; set; \x7d\n".toList ++
  "@AuraEnabled @TestVisible ".toList ++ "GLOBAL virtual Item[] ".toList ++
  "find(String key, Integer limit) ".toList ++ "\x7b \x7d\n".toList ++
  "public class Item \x7b\n".toList ++ "private Integer count ".toList ++
  "\x7b get; set; \x7d\n".toList ++ "public class Note \x7b\n\x7d\n\x7d\n".toList ++
  "public void clear() \x7b \x7d\n\x7d".toList

theorem read_source_cart :
    (Member.inner "Cart".toList cart).IsPlain ∧ read cartSource [] =
      described "Cart".toList cart := by
  have hmap : HasTypeShape ("Map".toList ++ ("<String, List<Item>>".toList ++ [])) :=
    .mk (by decide) (by decide) (.inr ⟨"String, List<Item>".toList, rfl, by decide⟩) (.inl rfl)
  have hitems : HasTypeShape ("Item".toList ++ ([] ++ "[]".toList)) :=
    .mk (by decide) (by decide) (.inl rfl) (.inr rfl)
  have hinteger : HasTypeShape ("Integer".toList ++ ([] ++ [])) :=
    .mk (by decide) (by decide) (.inl rfl) (.inl rfl)
  have hvoid : HasTypeShape ("void".toList ++ ([] ++ [])) :=
    .mk (by decide) (by decide) (.inl rfl) (.inl rfl)
  have hplain : (Member.inner "Cart".toList cart).IsPlain := by
    refine ⟨⟨by decide, by decide, by decide⟩, ?_, ?_,
      ⟨⟨by decide, by decide, by decide⟩, ?_, ?_, trivial⟩, ?_, trivial⟩
    · exact ⟨by decide, by decide, ⟨hmap, by decide, by decide, by decide⟩, by decide, by decide, by
        decide⟩
    · refine ⟨List.forall_mem_cons.mpr ⟨⟨by decide, by decide, by decide⟩,
        List.forall_mem_singleton.mpr ?_⟩, ?_, ?_⟩
      · exact ⟨by decide, by decide, by decide⟩
      · exact ⟨by decide, by decide, ⟨hitems, by decide, by decide, by decide⟩, by decide, by
          decide, by decide⟩
      · exact ⟨by decide, by decide, by decide, by decide, by decide⟩
    · exact ⟨by decide, by decide, ⟨hinteger, by decide, by decide, by decide⟩, by decide, by
        decide, by decide⟩
    · exact ⟨⟨by decide, by decide, by decide⟩, trivial⟩
    · refine ⟨List.forall_mem_nil _, ?_, ?_⟩
      · exact ⟨by decide, by decide, ⟨hvoid, by decide, by decide, by decide⟩, by decide, by
          decide, by decide⟩
      · exact ⟨by decide, by decide, by decide, by decide, by decide⟩
  have hsource : (Member.inner "Cart".toList cart).source = cartSource := by decide +kernel
  exact ⟨hplain, hsource ▸ read_source hplain []⟩

end Visualforce.Apex
