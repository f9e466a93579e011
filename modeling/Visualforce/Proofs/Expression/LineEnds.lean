import Visualforce.Proofs.Expression.Fields
import Visualforce.Proofs.Pattern.LineEndScan

/-! # Expressions and line ends

The expressions of a text with its line ends unified are those of the text, unified one by one, and
each is of the same kind. An expression that holds blanks only shows the last of them.
-/
namespace Visualforce.Expression
open Pattern Cursor Digest

variable {text rest inner : Text}

theorem unifyLineEnds_field (inner rest : Text) :
    unifyLineEnds (opening ++ (inner ++ '}' :: rest)) =
      opening ++ (unifyLineEnds inner ++ '}' :: unifyLineEnds rest) := by
  rw [unifyLineEnds_append_left (by decide), unifyLineEnds_append_of_head (by simp),
    unifyLineEnds_cons (by decide)]

theorem captured_unifyLineEnds (inner : Text) :
    captured (unifyLineEnds inner) = unifyLineEnds (captured inner) := by
  rw [captured, captured, Text.isBlankText, Text.isBlankText, all_unifyLineEnds (by decide)]
  split_ifs
  · rw [getLast?_unifyLineEnds]
    cases inner.getLast? with
    | none => rfl
    | some c =>
      have hsingle : ¬(c = '\r' ∧ ([] : Text).head? = some '\n') := by simp
      exact (unifyLineEnds_single hsingle).symm
  · exact trim_unifyLineEnds inner

/-- Something stands between an opening and the next closing brace. -/
def OpensField (text : Text) : Prop :=
  ∃ inner rest, text = opening ++ (inner ++ '}' :: rest) ∧ inner ≠ [] ∧ '}' ∉ inner

theorem opensField_of_unifyLineEnds (h : OpensField (unifyLineEnds text)) : OpensField text := by
  obtain ⟨inner, rest, htext, hne, hbrace⟩ := h
  obtain ⟨left, rfl⟩ := (isPrefix_unifyLineEnds (by decide)).mp ⟨_, htext.symm⟩
  rw [unifyLineEnds_append_left (by decide), List.append_cancel_left_eq] at htext
  have hmem : '}' ∈ left := (mem_unifyLineEnds (by decide)).mp (htext ▸ by simp)
  obtain ⟨front, more, rfl, hfront⟩ := List.eq_append_cons_of_mem hmem
  refine ⟨front, more, rfl, ?_, hfront⟩
  rintro rfl
  rw [List.nil_append, unifyLineEnds_cons (by decide)] at htext
  obtain ⟨c, inner, rfl⟩ := List.exists_cons_of_ne_nil hne
  exact hbrace ((List.cons.inj htext).1 ▸ List.mem_cons_self)

theorem run_mergeField_none {before : Option Char} (h : ¬OpensField text) :
    mergeField.run ⟨between before text, []⟩ some = none := by
  by_contra hrun
  have hmatch : mergeField.matchAt (between before text) ≠ none := by
    rwa [matchAt, Ne, Option.map_eq_none_iff]
  exact h (exists_inner_of_matchAt hmatch)

theorem follows_mergeField :
    Follows text (InStep text) (mergeField.run · some) (mergeField.run · some) := by
  rintro ⟨here, groups⟩ ⟨there, groups'⟩ ⟨hcursor, hgroups⟩
  dsimp only at hcursor hgroups ⊢
  rw [run_groups, run_groups _ there]
  suffices hrun : Option.Rel (InStep text) (mergeField.run ⟨here, []⟩ some)
      (mergeField.run ⟨there, []⟩ some) from
    rel_map hrun fun last last' hlast =>
      ⟨hlast.cursor, List.rel_append hlast.groups hgroups⟩
  obtain rfl := hcursor.unified
  rw [eq_between here] at hcursor ⊢
  generalize here.before = before at hcursor ⊢
  generalize here.rest = ahead at hcursor ⊢
  simp only [between_before, between_rest] at hcursor ⊢
  by_cases hfield : OpensField ahead
  · obtain ⟨inner, rest, rfl, hne, hbrace⟩ := hfield
    have hbrace' : '}' ∉ unifyLineEnds inner := mt (mem_unifyLineEnds (by decide)).mp hbrace
    obtain ⟨span, hspan, hrun⟩ := run_mergeField_of_brace hne hbrace before rest
    obtain ⟨span', hspan', hrun'⟩ := run_mergeField_of_brace
      (mt unifyLineEnds_eq_nil_iff.mp hne) hbrace' (before.map unified) (unifyLineEnds rest)
    have hparts : opening ++ (inner ++ '}' :: rest) = opening ++ (inner ++ ['}']) ++ rest := by
      simp
    have hlast : (opening ++ (inner ++ ['}'])).getLast? = some '}' := by
      rw [← List.append_assoc, List.getLast?_concat]
    have hwhole : ¬MeetInLineEnd (opening ++ (inner ++ ['}'])) rest := fun hmeet => by
      rw [MeetInLineEnd, hlast] at hmeet
      exact absurd hmeet.1 (by decide)
    have hstop := (hparts ▸ hcursor).advance (by simp) hwhole
    rw [hlast] at hstop
    rw [hrun, unifyLineEnds_field, hrun']
    refine .some ⟨hstop, .cons ⟨rfl, ?_⟩ .nil⟩
    rw [hspan, hspan', captured_unifyLineEnds]
  · rw [run_mergeField_none hfield, run_mergeField_none (mt opensField_of_unifyLineEnds hfield)]
    exact .none

theorem ignores_mergeField : IgnoresLineEnds mergeField :=
  ⟨follows_mergeField, (((blocks_exactly (by decide)).append _).append _ |>.append _).append _⟩

theorem find_unifyLineEnds (text : Text) :
    find (unifyLineEnds text) = (find text).map unifyLineEnds := by
  rw [find, find, findAll_unifyLineEnds ignores_mergeField, filled_unifyLineEnds]

theorem keeps_identifier {κ : Type} : Keeps (identifier : Pattern κ) :=
  (keeps_one (by decide) (by decide)).append ((keeps_one (by decide) (by decide)).many true)

theorem blocks_identifier {κ : Type} : Blocks (identifier : Pattern κ) :=
  (blocks_one (by decide)).append _

theorem startsWith_unifyLineEnds {κ : Type} {pattern : Pattern κ} (h : Keeps pattern)
    (text : Text) : startsWith pattern (unifyLineEnds text) = startsWith pattern text := by
  rw [startsWith, startsWith]
  obtain ⟨hnone, hnone'⟩ | ⟨hit, hit', hsome, hsome', -⟩ :=
    rel_cases (rel_matchAt h.follows (samePlace_start text))
  · rw [hnone, hnone']
  · rw [hsome, hsome']
    rfl

theorem ignores_booleanWord : IgnoresLineEnds booleanWord := by
  have hwords : ∀ word ∈ [anyCase "AND", anyCase "OR", anyCase "NOT"],
      Keeps (word : Pattern Unit) := by
    simp only [List.forall_mem_cons]
    exact ⟨keeps_caseless (by decide), keeps_caseless (by decide), keeps_caseless (by decide),
      List.forall_mem_nil _⟩
  exact ((keeps_wordEdge.append (keeps_firstOf hwords)).append keeps_wordEdge).ignores
    ((blocks_wordEdge.append _).append _)

theorem ignores_dottedAccess : IgnoresLineEnds dottedAccess :=
  ((keeps_identifier.append (keeps_char (by decide))).append keeps_identifier).ignores
    ((blocks_identifier.append _).append _)

/-- How its lines end makes no difference to the kind of an expression. -/
theorem classify_unifyLineEnds (content : Text) :
    classify (unifyLineEnds content) = classify content := by
  have hcall : Keeps callOpening := keeps_identifier.append (keeps_char (by decide))
  rw [classify, classify, trim_unifyLineEnds, occursIn_unifyLineEnds ignores_booleanWord,
    occursIn_unifyLineEnds ignores_dottedAccess, any_has_unifyLineEnds (by decide),
    startsWith_unifyLineEnds hcall]

end Visualforce.Expression
