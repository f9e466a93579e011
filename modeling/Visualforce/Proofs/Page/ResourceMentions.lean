import Visualforce.Page.Resources
import Visualforce.Proofs.Pattern.Scan
import Visualforce.Proofs.Text.Somewhere

/-! # Mentions of static resources

A static resource is mentioned where its name stands behind the mark of resources, up to a character
that no name goes on with. The scan for resources finds these names from left to right, and none
across a character that is neither in the mark nor in a name.
-/
namespace Visualforce.Page
open Pattern Cursor

variable {text name front rest : Text} {before : Option Char}

def resourceMark : Text := "$Resource.".toList

def IsMentioned (text name : Text) : Prop :=
  name ≠ [] ∧ (∀ c ∈ name, Text.isWord c) ∧
    ∃ front rest, text = front ++ (resourceMark ++ (name ++ rest)) ∧
      ∀ c ∈ rest.head?, Text.isWord c = false

/-- The name of the resource that the text begins with. -/
def resourceAt? (text : Text) : Option Text :=
  (text.dropPrefix? resourceMark).bind fun behind => nonEmpty? (behind.takeWhile Text.isWord)

/-- The names of all resources in the text, from left to right. -/
def resourceNames (text : Text) : List Text := text.tails.filterMap resourceAt?

theorem nonEmpty?_eq_some_iff : nonEmpty? text = some name ↔ text = name ∧ name ≠ [] := by
  cases text with
  | nil => exact ⟨fun h => absurd h.symm (Option.some_ne_none name), fun h => absurd h.1.symm h.2⟩
  | cons c text =>
    exact ⟨fun h => ⟨Option.some.inj h, Option.some.inj h ▸ List.cons_ne_nil c text⟩,
      fun h => congrArg some h.1⟩

theorem resourceAt?_eq_some_iff : resourceAt? text = some name ↔
    ∃ behind, text = resourceMark ++ behind ∧ behind.takeWhile Text.isWord = name ∧ name ≠ [] := by
  simp only [resourceAt?, Option.bind_eq_some_iff, Text.dropPrefix?_eq_some_iff,
    nonEmpty?_eq_some_iff]

/-- The name goes on as far as it can. -/
theorem resourceAt?_eq_some_iff_exists : resourceAt? text = some name ↔ name ≠ [] ∧
    (∀ c ∈ name, Text.isWord c) ∧
    ∃ rest, text = resourceMark ++ (name ++ rest) ∧ ∀ c ∈ rest.head?, Text.isWord c = false := by
  rw [resourceAt?_eq_some_iff]
  constructor
  · rintro ⟨behind, rfl, rfl, hne⟩
    refine ⟨hne, fun c => List.mem_takeWhile_imp, behind.dropWhile Text.isWord, ?_,
      fun c => Text.not_of_mem_head?_dropWhile⟩
    rw [List.takeWhile_append_dropWhile]
  · rintro ⟨hne, hname, rest, rfl, hrest⟩
    refine ⟨name ++ rest, rfl, ?_, hne⟩
    have hstop : rest.takeWhile Text.isWord = [] := by
      cases rest with
      | nil => rfl
      | cons c rest => rw [List.takeWhile_cons, if_neg (by simp [hrest c rfl])]
    rw [List.takeWhile_append_of_pos hname, hstop, List.append_nil]

theorem resourceAt?_cons_of_ne {c : Char} (h : c ≠ '$') (rest : Text) :
    resourceAt? (c :: rest) = none := by
  refine Option.eq_none_iff_forall_ne_some.mpr fun name hname => ?_
  obtain ⟨behind, hbehind, -⟩ := resourceAt?_eq_some_iff.mp hname
  exact h (List.cons.inj hbehind).1

/-- A character that no name goes on with, and that is not in the mark of resources. -/
structure EndsMention (c : Char) : Prop where
  mark : c ∉ resourceMark
  word : Text.isWord c = false

theorem resourceAt?_append_cons {c : Char} (hc : EndsMention c) (first second : Text) :
    resourceAt? (first ++ c :: second) = resourceAt? first := by
  refine Option.ext fun name => ?_
  rw [resourceAt?_eq_some_iff, resourceAt?_eq_some_iff]
  constructor
  · rintro ⟨behind, hbehind, hname, hne⟩
    obtain ⟨left, rfl, hleft⟩ := Text.exists_of_append_eq_cons hc.mark hbehind.symm
    rw [hleft, Text.takeWhile_append_cons hc.word] at hname
    exact ⟨left, rfl, hname, hne⟩
  · rintro ⟨behind, rfl, hname, hne⟩
    refine ⟨behind ++ c :: second, List.append_assoc _ _ _, ?_, hne⟩
    rw [Text.takeWhile_append_cons hc.word, hname]

@[simp] theorem resourceNames_nil : resourceNames [] = [] := rfl

theorem resourceNames_cons (c : Char) (rest : Text) :
    resourceNames (c :: rest) = (resourceAt? (c :: rest)).toList ++ resourceNames rest := by
  rw [resourceNames, List.tails, List.filterMap_cons]
  cases resourceAt? (c :: rest) with
  | none => rfl
  | some name => rfl

theorem mem_resourceNames_iff : name ∈ resourceNames text ↔ IsMentioned text name := by
  simp only [resourceNames, List.mem_filterMap, List.mem_tails, resourceAt?_eq_some_iff_exists]
  constructor
  · rintro ⟨_, ⟨front, rfl⟩, hne, hname, rest, rfl, hrest⟩
    exact ⟨hne, hname, front, rest, rfl, hrest⟩
  · rintro ⟨hne, hname, front, rest, rfl, hrest⟩
    exact ⟨_, ⟨front, rfl⟩, hne, hname, rest, rfl, hrest⟩

theorem resourceNames_append_of_not_mem (h : '$' ∉ front) (rest : Text) :
    resourceNames (front ++ rest) = resourceNames rest := by
  induction front with
  | nil => rfl
  | cons c front ih =>
    have hc : c ≠ '$' := (List.ne_of_not_mem_cons h).symm
    rw [List.cons_append, resourceNames_cons, resourceAt?_cons_of_ne hc,
      ih (List.not_mem_of_not_mem_cons h)]
    rfl

theorem resourceNames_of_not_isInfix (h : ¬ resourceMark <:+: text) : resourceNames text = [] := by
  refine List.eq_nil_iff_forall_not_mem.mpr fun name hname => h ?_
  obtain ⟨-, -, front, rest, rfl, -⟩ := mem_resourceNames_iff.mp hname
  exact ⟨front, name ++ rest, by rw [List.append_assoc]⟩

theorem resourceNames_append_cons {c : Char} (hc : EndsMention c) (first second : Text) :
    resourceNames (first ++ c :: second) = resourceNames first ++ resourceNames second :=
  Text.filterMap_tails_append_cons rfl (resourceAt?_append_cons hc) first second

theorem resourceName_run {here : Place Unit} {goOn : Place Unit → Option (Place Unit)} :
    resourceName.run here goOn =
    (exactly resourceMark).run here fun there => (group () (plus wordChar)).run there goOn := rfl

theorem matchAt_resource_none (h : resourceAt? text = none) :
    resourceName.matchAt (between before text) = none := by
  have hrun : resourceName.run ⟨between before text, []⟩ some = none := by
    by_cases hmark : resourceMark <+: text
    · obtain ⟨behind, rfl⟩ := hmark
      have hempty : behind.takeWhile Text.isWord = [] := by
        by_contra hne
        rw [resourceAt?_eq_some_iff.mpr ⟨behind, rfl, rfl, hne⟩] at h
        cases h
      rw [resourceName_run, run_exactly_append, run_group, plus, run_append]
      refine run_one_of_head? fun c hc => ?_
      obtain ⟨more, rfl⟩ := List.head?_eq_some_iff.mp hc
      by_contra hword
      rw [Bool.not_eq_false] at hword
      rw [List.takeWhile_cons, if_pos hword] at hempty
      cases hempty
    · exact run_exactly_of_not_isPrefix hmark
  rw [matchAt, hrun]
  rfl

theorem exists_matchAt_resource (hne : name ≠ []) (hname : ∀ c ∈ name, Text.isWord c)
    (hrest : ∀ c ∈ rest.head?, Text.isWord c = false) (before : Option Char) : ∃ hit after,
    resourceName.matchAt (between before (resourceMark ++ (name ++ rest))) = some hit ∧
    hit.group () = name ∧
      hit.stop = between after rest := by
  let inside := between (behind before resourceMark) (name ++ rest)
  let last := between (behind (behind before resourceMark) name) rest
  refine ⟨⟨between before (resourceMark ++ (name ++ rest)), last, [((), inside.spanTo last)]⟩, _,
    ?_, spanTo_text _ _ _ _, rfl⟩
  have hrun : resourceName.run ⟨between before (resourceMark ++ (name ++ rest)), []⟩ some =
      some ⟨last, [((), inside.spanTo last)]⟩ := by
    rw [resourceName_run, run_exactly_append]
    exact run_plusOne_of_some hne hname hrest rfl
  rw [matchAt, hrun]
  rfl

theorem scans_resources (before : Option Char) (text : Text) : ∃ after,
    Scans resourceName (seen (·.group ())) (between before text) (resourceNames text)
    (between after []) := by
  induction hlength : text.length using Nat.strong_induction_on generalizing before text with
  | _ n ih =>
    cases hat : resourceAt? text with
    | none =>
      cases text with
      | nil => exact ⟨before, .done _⟩
      | cons c rest =>
        obtain ⟨after, hscan⟩ := ih rest.length (by rw [← hlength]; exact Nat.lt_succ_self _)
          (some c) rest rfl
        rw [resourceNames_cons, hat]
        exact ⟨after, .skip rfl (matchAt_resource_none hat) hscan⟩
    | some name =>
      obtain ⟨hne, hname, rest, rfl, hrest⟩ := resourceAt?_eq_some_iff_exists.mp hat
      obtain ⟨hit, behind, hmatch, hgroup, hstop⟩ := exists_matchAt_resource hne hname hrest before
      have hsource : resourceMark ++ (name ++ rest) =
        '$' :: (("Resource.".toList ++ name) ++ rest) := by
        rw [List.append_assoc]
        rfl
      have hmark : '$' ∉ "Resource.".toList ++ name := by
        rw [List.mem_append, not_or]
        exact ⟨by decide, fun hmem => absurd (hname '$' hmem) (by decide)⟩
      have hmentions : resourceNames (resourceMark ++ (name ++ rest)) = [name] ++
        resourceNames rest := by
        rw [hsource, resourceNames_cons, ← hsource, hat, resourceNames_append_of_not_mem hmark]
        rfl
      have hlt : hit.stop.left < (between before (resourceMark ++ (name ++ rest))).left := by
        rw [hstop, between_left, between_left, hsource, List.length_cons, List.length_append]
        omega
      obtain ⟨after, hscan⟩ :=
        ih rest.length (by rwa [hstop, between_left, between_left, hlength] at hlt) behind rest rfl
      have hfirst := Scans.single (·.group ()) hmatch hlt
      rw [hgroup, hstop] at hfirst
      rw [hmentions]
      exact ⟨after, hfirst.append hscan⟩

theorem findAll_resources (text : Text) : resourceName.findAll () text = resourceNames text := by
  obtain ⟨after, hscan⟩ := scans_resources none text
  exact hscan.hits

theorem resourcesIn_eq (text : Text) :
    resourcesIn text = (resourceNames text).map (⟨.staticResource, ·⟩) := by
  rw [resourcesIn, findAll_resources]

end Visualforce.Page
