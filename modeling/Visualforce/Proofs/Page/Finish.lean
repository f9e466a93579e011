import Visualforce.Proofs.Page.Dependencies

/-! # The final steps

From whatever page they start, the final steps leave lists without repetitions and expressions by
falling rank, and keep what was there before in its order. Taken a second time on the same text they
change nothing, except that a failure of the raw passes is noted once more: what each step adds is
settled by fields that the first time has settled already.
-/
namespace Visualforce.Page
open Expression

variable {config : Config} {text : Text} {page : Page}

/-- The lists of a page that hold sets repeat nothing, and its expressions stand by falling rank. -/
structure HasOrderedSets (page : Page) : Prop where
  templateFragments : page.templateFragments.Nodup
  expressions : page.expressions.Nodup
  ranked : page.expressions.Pairwise fun a b => rank b ≤ rank a
  inputBindings : page.inputBindings.Nodup
  buttonActions : page.buttonActions.Nodup
  customComponents : page.customComponents.Nodup
  entities : page.entities.Nodup
  entityFields : page.entityFields.Nodup

theorem finish_hasOrderedSets (config : Config) (text : Text) (page : Page) :
    HasOrderedSets (finish config text page) where
  templateFragments := nodup_dedupe _
  expressions := (Expression.rankAll_isRanking _).nodup
  ranked := (Expression.rankAll_isRanking _).falling
  inputBindings := nodup_dedupe _
  buttonActions := nodup_dedupe _
  customComponents := nodup_dedupe _
  entities := nodup_dedupe _
  entityFields := nodup_dedupe _

structure HasRaw (config : Config) (text : Text) (page : Page) : Prop where
  formCount : page.formCount = formsIn text
  hasRemoteObjects : page.hasRemoteObjects = hasRemoting text
  hasStaticResources : page.hasStaticResources = hasResources text
  scripts : ∀ scripts, scriptsIn config.inlineScriptLength text = .ok scripts → page.scripts =
    scripts
  templateFragments : ∀ scripts, scriptsIn config.inlineScriptLength text = .ok scripts →
    fragmentsIn text ⊆ page.templateFragments

theorem readRawOrWarn_hasRaw (config : Config) (text : Text) (page : Page) :
    HasRaw config text (readRawOrWarn config text page) := by
  rw [readRawOrWarn, readRaw]
  cases hscripts : scriptsIn config.inlineScriptLength text with
  | error error => exact ⟨rfl, rfl, rfl, by simp [hscripts], by simp [hscripts]⟩
  | ok scripts =>
    refine ⟨rfl, rfl, rfl, by simp [hscripts], fun _ _ fragment hfragment => ?_⟩
    exact mem_dedupe.mpr (List.mem_append_right _ hfragment)

theorem HasRaw.readRawOrWarn (h : HasRaw config text page) (hnodup : page.templateFragments.Nodup) :
    readRawOrWarn config text page = { page with
        warnings := page.warnings ++ rawWarnings config text } := by
  have hforms := h.formCount
  have hremoting := h.hasRemoteObjects
  have hresources := h.hasStaticResources
  rw [Page.readRawOrWarn, readRaw, rawWarnings, ← hforms, ← hremoting, ← hresources]
  cases hscripts : scriptsIn config.inlineScriptLength text with
  | error error => rfl
  | ok scripts =>
    have hfragments : dedupe (page.templateFragments ++ fragmentsIn text) =
      page.templateFragments :=
      (dedupe_append_of_subset (h.templateFragments scripts hscripts)).trans
        (dedupe_of_nodup hnodup)
    simp only [hfragments, ← h.scripts scripts hscripts, List.append_nil]

theorem finish_hasRaw (config : Config) (text : Text) (page : Page) :
    HasRaw config text (finish config text page) := by
  have h := readRawOrWarn_hasRaw config text page
  rw [finish]
  -- Of the page read so far only what `h` says is needed.
  generalize readRawOrWarn config text page = read at h
  exact ⟨h.formCount, h.hasRemoteObjects, h.hasStaticResources, h.scripts,
    fun scripts hscripts _ hfragment =>
    mem_dedupe.mpr (h.templateFragments scripts hscripts hfragment)⟩

theorem readRawOrWarn_adds (config : Config) (text : Text) (page : Page) :
    dedupe page.templateFragments <+:
      dedupe (readRawOrWarn config text page).templateFragments := by
  rw [Page.readRawOrWarn, readRaw]
  cases scriptsIn config.inlineScriptLength text with
  | error error => exact List.prefix_rfl
  | ok scripts =>
    change _ <+: dedupe (dedupe (page.templateFragments ++ fragmentsIn text))
    rw [dedupe_dedupe]
    exact dedupe_prefix_append _ _

theorem rankAll_of_ranked {expressions : List Text} (hnodup : expressions.Nodup)
    (hranked : expressions.Pairwise fun a b => rank b ≤ rank a) :
    rankAll expressions = expressions := by
  rw [rankAll, dedupe_of_nodup hnodup]
  exact List.mergeSort_of_pairwise (hranked.imp fun h => by simpa using h)

theorem HasOrderedSets.dedupeSets (h : HasOrderedSets page) :
    dedupeSets (rankExpressions page) = page := by
  simp only [Page.dedupeSets, rankExpressions, dedupe_of_nodup h.templateFragments,
    rankAll_of_ranked h.expressions h.ranked, dedupe_of_nodup h.inputBindings,
    dedupe_of_nodup h.buttonActions, dedupe_of_nodup h.customComponents, dedupe_of_nodup h.entities,
    dedupe_of_nodup h.entityFields]

theorem backfill_context (controller : Option Text) (reference : FieldReference) :
    (backfill controller reference).context = reference.context := by
  rw [backfill]
  split <;> rfl

theorem backfill_backfill (controller : Option Text) (reference : FieldReference) :
    backfill controller (backfill controller reference) = backfill controller reference := by
  rw [backfill.eq_def controller (backfill controller reference), backfill_expression]
  split
  · rename_i field named hfield
    rw [backfill, hfield]
  · rfl

/-- Resolving dependencies that are resolved changes nothing. -/
theorem addDependencies_addDependencies (page : Page) :
    addDependencies (addDependencies page) = addDependencies page := by
  have hexpressions : (addDependencies page).fieldReferences.map (·.expression) =
      page.fieldReferences.map (·.expression) := by
    simp [addDependencies, Function.comp_def, backfill_expression]
  have hreferences : (addDependencies page).fieldReferences.map
      (backfill (controllerEntity? page.controller)) = (addDependencies page).fieldReferences := by
    simp [addDependencies, Function.comp_def, backfill_backfill]
  have hmerged : ∀ old found : List Text,
      dedupe (dedupe (old ++ found) ++ found) = dedupe (old ++ found) := fun old found => by
    rw [dedupe_append_of_subset fun v hv => mem_dedupe.mpr (List.mem_append_right _ hv),
      dedupe_dedupe]
  rw [addDependencies.eq_def (addDependencies page), hexpressions]
  simp only [addDependencies] at hreferences ⊢
  rw [hreferences, hmerged, hmerged]

theorem addDependencies_withWarnings (page : Page) (warnings : List Text) :
    addDependencies { page with warnings := warnings } =
      { addDependencies page with warnings := warnings } := rfl

theorem finish_references (config : Config) (text : Text) (page : Page) :
    (finish config text page).fieldReferences.map
      (fun reference => (reference.expression, reference.context)) =
      page.fieldReferences.map fun reference => (reference.expression, reference.context) := by
  obtain ⟨forms, remoting, resources, scripts, fragments, warnings, hraw⟩ :=
    readRawOrWarn_frame config text page
  rw [finish, hraw]
  simp [addDependencies, dedupeSets, rankExpressions, Function.comp_def, backfill_expression,
    backfill_context]

/-- What the final steps append comes behind what was there. -/
theorem finish_adds (config : Config) (text : Text) (page : Page) :
    dedupe page.templateFragments <+: (finish config text page).templateFragments ∧
    dedupe page.entities <+: (finish config text page).entities ∧
    dedupe page.entityFields <+: (finish config text page).entityFields := by
  have hmerged : ∀ old found : List Text, dedupe old <+: dedupe (dedupe old ++ found) := by
    intro old found
    have h := dedupe_prefix_append (dedupe old) found
    rwa [dedupe_dedupe] at h
  have hfragments := readRawOrWarn_adds config text page
  obtain ⟨forms, remoting, resources, scripts, fragments, warnings, hraw⟩ :=
    readRawOrWarn_frame config text page
  rw [hraw] at hfragments
  rw [finish, hraw]
  exact ⟨hfragments, hmerged page.entities _, hmerged page.entityFields _⟩

/-- A second time the final steps only note again what failed. -/
theorem finish_finish (config : Config) (text : Text) (page : Page) :
    finish config text (finish config text page) = { finish config text page with
      warnings := (finish config text page).warnings ++ rawWarnings config text } := by
  have hraw := finish_hasRaw config text page
  have hsets := finish_hasOrderedSets config text page
  have hdependencies : addDependencies (finish config text page) = finish config text page :=
    addDependencies_addDependencies _
  generalize finish config text page = done at hraw hsets hdependencies
  have hsets' : HasOrderedSets { done with warnings := done.warnings ++ rawWarnings config text } :=
    { hsets with }
  rw [finish, hraw.readRawOrWarn hsets.templateFragments, hsets'.dedupeSets,
    addDependencies_withWarnings, hdependencies]

/-- From any page the final steps leave sets without repetitions and the same expressions by falling
rank. Bindings, actions and custom components lose their repetitions only; template fragments,
entities and fields begin with what was there; references keep expression and context. A second time
nothing changes but the warnings, where a failure of the raw passes is noted once more. -/
theorem finish_normalizes (config : Config) (text : Text) (page : Page) :
    let done := finish config text page
    HasOrderedSets done ∧
    (∀ content, content ∈ done.expressions ↔ content ∈ page.expressions) ∧
    done.inputBindings = dedupe page.inputBindings ∧
    done.buttonActions = dedupe page.buttonActions ∧
    done.customComponents = dedupe page.customComponents ∧
    dedupe page.templateFragments <+: done.templateFragments ∧
    dedupe page.entities <+: done.entities ∧
    dedupe page.entityFields <+: done.entityFields ∧
    done.fieldReferences.map (fun reference => (reference.expression, reference.context)) =
      page.fieldReferences.map (fun reference => (reference.expression, reference.context)) ∧
    done.warnings = page.warnings ++ rawWarnings config text ∧
    finish config text done = { done with
        warnings := done.warnings ++ rawWarnings config text } := by
  intro done
  obtain ⟨hfragments, hentities, hfields⟩ := finish_adds config text page
  obtain ⟨hexpressions, hinputs, hactions, hcustom⟩ :
      done.expressions = rankAll page.expressions ∧ done.inputBindings = dedupe page.inputBindings ∧
        done.buttonActions = dedupe page.buttonActions ∧
        done.customComponents = dedupe page.customComponents := by
    obtain ⟨forms, remoting, resources, scripts, fragments, warnings, hraw⟩ :=
      readRawOrWarn_frame config text page
    simp only [done, finish, hraw]
    exact ⟨rfl, rfl, rfl, rfl⟩
  refine ⟨finish_hasOrderedSets config text page, fun content => ?_, hinputs, hactions, hcustom,
    hfragments, hentities, hfields, finish_references config text page, finish_warnings_eq config
    text page, finish_finish config text page⟩
  rw [hexpressions, (rankAll_perm page.expressions).mem_iff, mem_dedupe]

example : rawWarnings { Config.standard with inlineScriptLength := none }
    "<script>f()</script>".toList =
    ["Raw text passes failed: ".toList ++ LimitError.unset.message] := by
  rfl

end Visualforce.Page
