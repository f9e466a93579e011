import Visualforce.Proofs.Page.RecoverySteps

/-! # Failing steps of a recovery

Only the reading of panels can fail, namely at the first panel with a body when the limit of
previews is unset. The failure is noted once, and every step writes what it writes alone. The panels
in front of the failing one stay.
-/
namespace Visualforce.Page
open Pattern Markup

variable {config : Config} {text : Text} {page : Page} {step other : Step}

def Step.fields (step : Step) (page : Page) : Page :=
  match step with
  | settings => { Page.empty .fallback with
      controller := page.controller, customController := page.customController, extensions :=
        page.extensions
      apiVersion := page.apiVersion, label := page.label }
  | components => { Page.empty .fallback with
      components := page.components, customComponents := page.customComponents }
  | bindings => { Page.empty .fallback with
      inputBindings := page.inputBindings, buttonActions := page.buttonActions }
  | blocks => { Page.empty .fallback with blocks := page.blocks }
  | actionSupports => { Page.empty .fallback with actionSupports := page.actionSupports }
  | outputPanels => { Page.empty .fallback with outputPanels := page.outputPanels }
  | expressions => { Page.empty .fallback with
      expressions := page.expressions, fieldReferences := page.fieldReferences }

theorem fields_runStep_of_ne (h : other ≠ step) (page : Page) :
    other.fields (runStep config text page step) = other.fields page := by
  obtain ⟨panels, failures, hpanels⟩ := runStep_outputPanels config text
  cases step with
  | outputPanels =>
    rw [hpanels]
    cases other with
    | outputPanels => exact absurd rfl h
    | settings | components | bindings | blocks | actionSupports | expressions => rfl
  | settings | components | bindings | blocks | actionSupports | expressions =>
    cases other <;> first | rfl | exact absurd rfl h

theorem fields_runSteps_of_not_mem {steps : List Step} (h : step ∉ steps) (page : Page) :
    step.fields (runSteps config text steps page) = step.fields page := by
  induction steps generalizing page with
  | nil => rfl
  | cons first rest ih =>
    rw [List.mem_cons, not_or] at h
    exact (ih h.2 (runStep config text page first)).trans (fields_runStep_of_ne h.1 page)

/-- In a run of different steps each one writes what it writes alone, also if it fails. -/
theorem fields_runSteps {steps : List Step} (hnodup : steps.Nodup) (hstep : step ∈ steps)
    (page : Page) :
    step.fields (runSteps config text steps page) =
      step.fields (runStep config text page step) := by
  rw [runSteps_perm (List.perm_cons_erase hstep)]
  exact fields_runSteps_of_not_mem (hnodup.not_mem_erase) (runStep config text page step)

def panelWithoutPreview (opening : Hit PanelPart) : OutputPanel :=
  let attributes := attributesIn (opening.group .attributes)
  ⟨attributes.get? "id".toList, attributes.get? "layout".toList, none⟩

theorem panelOf_of_empty {opening : Hit PanelPart} (h : panelBody opening = []) :
    panelOf config opening = .ok (panelWithoutPreview opening) := by
  rw [panelOf, h]
  rfl

theorem panelOf_of_unset {opening : Hit PanelPart} (hlimit : config.previewLength = none)
    (h : panelBody opening ≠ []) : panelOf config opening = .error .unset := by
  obtain ⟨c, body, hbody⟩ := List.exists_cons_of_ne_nil h
  rw [panelOf, hbody, hlimit]
  rfl

/-- The openings that are read and the one at which the reading fails. -/
structure FailsAfter (config : Config) (openings passed : List (Hit PanelPart)) : Prop where
  limit : config.previewLength = none
  bodiless : ∀ opening ∈ passed, panelBody opening = []
  failing : ∃ failing rest, openings = passed ++ failing :: rest ∧ panelBody failing ≠ []

/-- Reading panels goes to the end or fails at the first body. -/
theorem readPanels_cases (config : Config) (openings : List (Hit PanelPart)) :
    (∃ panels, ∀ page, readPanels config openings page =
      ({ page with outputPanels := page.outputPanels ++ panels }, none)) ∨
    ∃ passed, FailsAfter config openings passed ∧ ∀ page, readPanels config openings page =
      ({ page with outputPanels := page.outputPanels ++ passed.map panelWithoutPreview },
        some .unset) := by
  induction openings with
  | nil => exact .inl ⟨[], fun page => by rw [readPanels, List.append_nil]⟩
  | cons opening rest ih =>
    by_cases hfirst : config.previewLength = none ∧ panelBody opening ≠ []
    · obtain ⟨hlimit, hbody⟩ := hfirst
      refine .inr ⟨[], ⟨hlimit, by simp, opening, rest, rfl, hbody⟩, fun page => ?_⟩
      rw [readPanels, panelOf_of_unset hlimit hbody, List.map_nil, List.append_nil]
    · obtain ⟨panel, hpanel, hbare⟩ : ∃ panel, panelOf config opening = .ok panel ∧
          (config.previewLength = none → panelBody opening = [] ∧
            panel = panelWithoutPreview opening) := by
        by_cases hlimit : config.previewLength = none
        · have hbody : panelBody opening = [] := by_contra fun hbody => hfirst ⟨hlimit, hbody⟩
          exact ⟨_, panelOf_of_empty hbody, fun _ => ⟨hbody, rfl⟩⟩
        · obtain ⟨panel, hpanel⟩ := panelOf_ok (Option.isSome_iff_ne_none.mpr hlimit) opening
          exact ⟨panel, hpanel, fun hnone => absurd hnone hlimit⟩
      obtain ⟨panels, hpanels⟩ | ⟨passed, hfails, hpanels⟩ := ih
      · refine .inl ⟨panel :: panels, fun page => ?_⟩
        rw [readPanels, hpanel]
        simp only [hpanels, List.append_assoc, List.singleton_append]
      · obtain ⟨hbody, rfl⟩ := hbare hfails.limit
        obtain ⟨failing, after, rfl, hfailing⟩ := hfails.failing
        refine .inr ⟨opening :: passed,
          ⟨hfails.limit, List.forall_mem_cons.mpr ⟨hbody, hfails.bodiless⟩, failing, after, rfl,
          hfailing⟩, fun page => ?_⟩
        rw [readPanels, hpanel]
        simp only [hpanels, List.append_assoc, List.singleton_append, List.map_cons]

theorem runStep_warnings_of_ne (h : step ≠ .outputPanels) (page : Page) :
    (runStep config text page step).warnings = page.warnings := by
  cases step with
  | outputPanels => exact absurd rfl h
  | settings | components | bindings | blocks | actionSupports | expressions => rfl

theorem runSteps_all_warnings (config : Config) (text : Text) (page : Page) :
    (runSteps config text Step.all page).warnings =
      (runStep config text page .outputPanels).warnings := by
  have hperm : Step.all.Perm (.outputPanels :: Step.all.erase .outputPanels) := by decide
  have hothers : ∀ steps : List Step, .outputPanels ∉ steps → ∀ page,
      (runSteps config text steps page).warnings = page.warnings := by
    intro steps hsteps page
    induction steps generalizing page with
    | nil => rfl
    | cons first rest ih =>
      rw [List.mem_cons, not_or] at hsteps
      exact (ih hsteps.2 (runStep config text page first)).trans
        (runStep_warnings_of_ne (Ne.symm hsteps.1) page)
  rw [runSteps_perm hperm, runSteps, List.foldl_cons, ← runSteps]
  exact hothers _ (by decide) (runStep config text page .outputPanels)

/-- The name of a step is what stands in front of the first space of its warning. -/
theorem eq_of_failure {first second : Step} {message error : Text}
    (h : first.name ++ " failed: ".toList ++ message = second.name ++ " failed: ".toList ++ error) :
    first = second ∧ message = error := by
  have hname : ∀ (step : Step) (rest : Text), (step.name ++ " failed: ".toList ++ rest).takeWhile
    (· != ' ') = step.name := by
    intro step rest
    have hword : ∀ c ∈ step.name, (c != ' ') = true := by cases step <;> decide
    rw [List.append_assoc, List.takeWhile_append_of_pos hword]
    exact List.append_nil _
  have hsame := congrArg (List.takeWhile (· != ' ')) h
  rw [hname, hname] at hsame
  have hstep : first = second := by revert hsame; cases first <;> cases second <;> decide
  subst hstep
  exact ⟨rfl, List.append_cancel_left h⟩

def NotesFailure (before after : Page) (step : Step) (message : Text) : Prop :=
  ∃ added, after.warnings = before.warnings ++ added ∧ step.name ++ " failed: ".toList ++
    message ∈ added

/-- Whatever fails, each step writes what it writes alone. If the failure of a step is noted, it is
the only warning that is added, and the step is the reading of panels, which keeps the panels
without a body in front of the first one with a body. So its field is as before just if there are
none. -/
theorem runSteps_failure (config : Config) (text : Text) (page : Page) :
    let after := runSteps config text Step.all page
    (∀ step : Step, step.fields after = step.fields (runStep config text page step)) ∧
    ∀ step message, NotesFailure page after step message →
      after.warnings = page.warnings ++ [step.name ++ " failed: ".toList ++ message] ∧
      step = .outputPanels ∧ message = LimitError.unset.message ∧
      ∃ passed, FailsAfter config (panelOpening.hits (visible config text)) passed ∧
        after.outputPanels = page.outputPanels ++ passed.map panelWithoutPreview ∧
        (step.fields after = step.fields page ↔ passed = []) := by
  intro after
  have halone : ∀ step : Step, step.fields after = step.fields (runStep config text page step) :=
    fun step => fields_runSteps (by decide) (by cases step <;> decide) page
  refine ⟨halone, fun step message hnotes => ?_⟩
  obtain ⟨added, hadded, hmem⟩ := hnotes
  have hwarnings : after.warnings = (runStep config text page .outputPanels).warnings :=
    runSteps_all_warnings config text page
  clear_value after
  obtain ⟨panels, hpanels⟩ | ⟨passed, hfails, hpanels⟩ :=
    readPanels_cases config (panelOpening.hits (visible config text))
  · have hnone : added = [] := by
      rw [hadded, runStep, Step.run, hpanels] at hwarnings
      exact List.append_right_eq_self.mp hwarnings
    rw [hnone] at hmem
    cases hmem
  · have hrun : runStep config text page .outputPanels = { page with
        outputPanels := page.outputPanels ++ passed.map panelWithoutPreview
        warnings := page.warnings ++ [failureWarning .outputPanels .unset] } := by
      rw [runStep, Step.run, hpanels]
      rfl
    have honly : added = [failureWarning .outputPanels .unset] := by
      rw [hadded, hrun] at hwarnings
      exact List.append_cancel_left hwarnings
    rw [honly, List.mem_singleton] at hmem
    obtain ⟨rfl, rfl⟩ := eq_of_failure hmem
    have houtput : after.outputPanels = page.outputPanels ++ passed.map panelWithoutPreview := by
      have h := congrArg (·.outputPanels) (halone .outputPanels)
      rw [hrun] at h
      exact h
    refine ⟨by rw [hadded, honly, failureWarning], rfl, rfl, passed, hfails, houtput, ?_⟩
    constructor
    · intro hsame
      have h : after.outputPanels = page.outputPanels := congrArg (·.outputPanels) hsame
      rw [houtput, List.append_right_eq_self, List.map_eq_nil_iff] at h
      exact h
    · rintro rfl
      rw [List.map_nil, List.append_nil] at houtput
      simp only [Step.fields, houtput]

/-- Settings without a limit for previews. -/
def unsetPreview : Config := { Config.standard with previewLength := none }

/-- A page whose first panel has a body. -/
def filledPanelText : Text :=
  "<apex:page controller=\"C\"><apex:outputPanel>\x7b!x\x7d".toList ++
    "</apex:outputPanel><apex:outputPanel id=\"a\"/>".toList

theorem recover_filledPanel :
    NotesFailure (Page.empty .fallback) (recover unsetPreview filledPanelText) .outputPanels
      LimitError.unset.message ∧
    Step.outputPanels.fields (recover unsetPreview filledPanelText) =
      Step.outputPanels.fields (Page.empty .fallback) ∧
    Step.settings.fields (recover unsetPreview filledPanelText) =
      Step.settings.fields (runStep unsetPreview filledPanelText (Page.empty .fallback) .settings) ∧
    (recover unsetPreview filledPanelText).warnings = [failureWarning .outputPanels .unset] := by
  have hnotes : NotesFailure (Page.empty .fallback) (recover unsetPreview filledPanelText)
    .outputPanels
      LimitError.unset.message :=
    ⟨[failureWarning .outputPanels .unset], by decide +kernel, List.mem_singleton.mpr rfl⟩
  have hfirst : ∀ opening ∈ (panelOpening.hits (visible unsetPreview filledPanelText)).head?,
      (panelBody opening).isEmpty = false := by
    decide +kernel
  obtain ⟨halone, hfailure⟩ := runSteps_failure unsetPreview filledPanelText (Page.empty .fallback)
  obtain ⟨hwarnings, -, -, passed, hfails, -, hsame⟩ := hfailure .outputPanels _ hnotes
  refine ⟨hnotes, hsame.mpr ?_, halone .settings, hwarnings⟩
  cases passed with
  | nil => rfl
  | cons opening passed =>
    obtain ⟨failing, rest, hopenings, -⟩ := hfails.failing
    have hbody := hfirst opening (by rw [hopenings]; rfl)
    rw [hfails.bodiless opening List.mem_cons_self] at hbody
    cases hbody

/-- A page with a panel in front of one that has a body. -/
def keptPanelText : Text :=
  "<apex:page><apex:outputPanel id=\"a\"/><apex:outputPanel id=\"b\">x</apex:outputPanel>".toList

/-- The failing step leaves a panel where there was none. -/
theorem recover_keptPanel :
    NotesFailure (Page.empty .fallback) (recover unsetPreview keptPanelText) .outputPanels
      LimitError.unset.message ∧
    Step.outputPanels.fields (recover unsetPreview keptPanelText) ≠
      Step.outputPanels.fields (Page.empty .fallback) :=
  Text.of_characters (fun text =>
    NotesFailure (Page.empty .fallback) (recover unsetPreview text) .outputPanels
      LimitError.unset.message ∧
    Step.outputPanels.fields (recover unsetPreview text) ≠
      Step.outputPanels.fields (Page.empty .fallback))
    ⟨⟨[failureWarning .outputPanels .unset], by decide +kernel, List.mem_singleton.mpr rfl⟩,
      by decide +kernel⟩

end Visualforce.Page
