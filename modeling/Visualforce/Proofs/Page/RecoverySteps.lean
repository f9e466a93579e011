import Mathlib.Data.List.Perm.Basic
import Visualforce.Proofs.Page.Finish

/-! # Steps of a recovery

The steps of a recovery write different fields of a page, and each reads only those that it writes
itself. So their order does not matter, and a light recovery gives what a full one gives without the
fields of the steps that it leaves out, also after the final steps.
-/
namespace Visualforce.Page
open Pattern Markup

variable {config : Config} {text : Text}

theorem runStep_outputPanels (config : Config) (text : Text) : ∃ panels failures, ∀ page,
    runStep config text page .outputPanels = { page with
      outputPanels := page.outputPanels ++ panels, warnings := page.warnings ++ failures } := by
  obtain ⟨panels, error, h⟩ := readPanels_appends config (panelOpening.hits (visible config text))
  cases error with
  | none => exact ⟨panels, [], fun page => by simp [runStep, Step.run, h]⟩
  | some error =>
    exact ⟨panels, [failureWarning .outputPanels error], fun page => by
      simp [runStep, Step.run, h, warn]⟩

theorem recover_bindings (config : Config) (text : Text) :
    (recover config text).inputBindings = (inputBinding.findAll () (visible config text)).map
      Text.trim ∧
      (recover config text).buttonActions = (buttonAction.findAll () (visible config text)).map
        Text.trim := by
  obtain ⟨panels, failures, hpanels⟩ := runStep_outputPanels config text
  have hsteps : recover config text = runStep config text (runStep config text
      (runSteps config text [.settings, .components, .bindings, .blocks, .actionSupports]
        (Page.empty .fallback))
      .outputPanels) .expressions := rfl
  rw [hsteps, hpanels, runSteps]
  simp only [List.foldl_cons, List.foldl_nil, runStep, Step.run]
  exact ⟨rfl, rfl⟩

theorem runStep_outputPanels_comm {step : Step} (h : step ≠ .outputPanels) (page : Page) :
    runStep config text (runStep config text page .outputPanels) step =
      runStep config text (runStep config text page step) .outputPanels := by
  obtain ⟨panels, failures, hpanels⟩ := runStep_outputPanels config text
  rw [hpanels, hpanels]
  cases step with
  | outputPanels => exact absurd rfl h
  | settings | components | bindings | blocks | actionSupports | expressions =>
    simp only [runStep, Step.run, readSettings, readComponents, readBindings, readBlocks,
      readActionSupports, collect]

/-- Two steps can change places: they write different fields, or they are the same step. -/
theorem runStep_comm (config : Config) (text : Text) (page : Page) (first second : Step) :
    runStep config text (runStep config text page first) second =
      runStep config text (runStep config text page second) first := by
  by_cases hsecond : second = .outputPanels
  · by_cases hfirst : first = .outputPanels
    · rw [hfirst, hsecond]
    · rw [hsecond, runStep_outputPanels_comm hfirst]
  · cases first with
    | outputPanels => exact runStep_outputPanels_comm hsecond page
    | settings | components | bindings | blocks | actionSupports | expressions =>
      cases second with
      | outputPanels => exact absurd rfl hsecond
      | settings | components | bindings | blocks | actionSupports | expressions =>
        simp only [runStep, Step.run, readSettings, readComponents, readBindings, readBlocks,
          readActionSupports, collect]

theorem runSteps_perm {steps others : List Step} (h : steps.Perm others) (page : Page) :
    runSteps config text steps page = runSteps config text others page :=
  h.foldl_eq' (fun first _ second _ page => runStep_comm config text page first second) page

/-- The steps that a light recovery leaves out. -/
def Step.omitted : List Step := [bindings, blocks, actionSupports, outputPanels]

theorem Step.light_omitted_perm : (Step.light ++ Step.omitted).Perm Step.all := by decide

/-- A page without the fields of the omitted steps, as one that was read lightly, with other
warnings. -/
def lightened (page : Page) (warnings : List Text) : Page :=
  { page with
    blocks := [], actionSupports := [], outputPanels := [], inputBindings := [], buttonActions := []
    mode := .lightweight, warnings := warnings }

theorem lightened_withWarnings (page : Page) (before warnings : List Text) :
    lightened { page with warnings := before } warnings = lightened page warnings := rfl

theorem lightened_runStep {step : Step} (h : step ∈ Step.omitted) (page : Page)
    (warnings : List Text) :
    lightened (runStep config text page step) warnings = lightened page warnings := by
  obtain ⟨panels, failures, hpanels⟩ := runStep_outputPanels config text
  cases step with
  | outputPanels => rw [hpanels]; rfl
  | bindings | blocks | actionSupports => rfl
  | settings | components | expressions => exact absurd h (by decide)

theorem lightened_runSteps {steps : List Step} (h : steps ⊆ Step.omitted) (page : Page)
    (warnings : List Text) :
    lightened (runSteps config text steps page) warnings = lightened page warnings := by
  induction steps generalizing page with
  | nil => rfl
  | cons step steps ih =>
    obtain ⟨hstep, hsteps⟩ := List.cons_subset.mp h
    exact (ih hsteps (runStep config text page step)).trans (lightened_runStep hstep page warnings)

/-- A light recovery is a full one without the fields of the omitted steps. -/
theorem recoverLight_eq (config : Config) (text : Text) :
    recoverLight config text = lightened (recover config text) [] := by
  rw [recover, ← runSteps_perm Step.light_omitted_perm, runSteps, List.foldl_append, ← runSteps,
    ← runSteps, lightened_runSteps (List.Subset.refl _)]
  rfl

theorem finish_lightened (config : Config) (text : Text) (page : Page) (warnings : List Text) :
    finish config text (lightened page warnings) =
      lightened (finish config text page) (warnings ++ rawWarnings config text) := by
  rw [finish, finish, readRawOrWarn, readRawOrWarn, readRaw, readRaw, rawWarnings]
  cases scriptsIn config.inlineScriptLength text with
  | ok scripts => simp only [List.append_nil]; rfl
  | error error => rfl

/-- Where the tree cannot be read, a page read lightly is the recovered one without the omitted
fields. -/
theorem readWith_lightened {threshold : Int} (hlimit : config.sizeThreshold ≤ 0) {error : TreeError}
    (herror : readTree config text = .error error) (hpositive : 0 < threshold)
    (hsize : threshold < text.length) :
    readWith { config with sizeThreshold := threshold } text = lightened (readWith config text)
      [] := by
  have hsmall : config.isOversize text = false := by
    rw [← Bool.not_eq_true, isOversize_iff]
    omega
  have hsame : recoverLight { config with sizeThreshold := threshold } text =
    recoverLight config text :=
    rfl
  rw [readWith_oversize (isOversize_iff.mpr ⟨hpositive, hsize⟩), readWith_fallback hsmall herror,
    hsame, lightened_withWarnings, recoverLight_eq]

theorem parse_lightened {threshold : Int} (hlimit : config.sizeThreshold ≤ 0) {error : TreeError}
    (herror : readTree config text = .error error) (hpositive : 0 < threshold)
    (hsize : threshold < text.length) (metadata : Option Text) :
    parse { config with sizeThreshold := threshold } text metadata =
      lightened (parse config text metadata)
        (rawWarnings config text ++ metadataWarnings metadata) := by
  have hfinish : finish { config with sizeThreshold := threshold } text
      (readWith { config with sizeThreshold := threshold } text) =
        lightened (finish config text (readWith config text)) (rawWarnings config text) := by
    rw [readWith_lightened hlimit herror hpositive hsize]
    exact finish_lightened config text (readWith config text) []
  rw [parse, parse, hfinish, metadataWarnings]
  cases metadata.bind nonEmpty? with
  | none => simp only [List.append_nil]
  | some document =>
    simp only [applyMetadata]
    cases Metadata.read document with
    | error error => rfl
    | ok found => simp only [List.append_nil]; rfl

/-- Where the tree cannot be read, a page under a size limit that its text exceeds is the page
without the limit, except that it has no blocks, supports, panels, bindings and actions, and no
other warnings than those of the raw passes and the metadata. The steps of a recovery can be run in
any order. -/
theorem parse_light_restricts_recovery :
    (∀ (config : Config) (text : Text) (metadata : Option Text) (threshold : Int),
      config.sizeThreshold ≤ 0 → (∃ error, readTree config text = .error error) →
      0 < threshold → threshold < text.length →
      parse { config with sizeThreshold := threshold } text metadata =
        { parse config text metadata with
          blocks := [], actionSupports := [], outputPanels := [], inputBindings :=
            [], buttonActions := []
          mode := .lightweight
          warnings := rawWarnings config text ++ metadataWarnings metadata }) ∧
    ∀ (config : Config) (text : Text) (steps : List Step) (page : Page), steps.Perm Step.all →
      runSteps config text steps page = runSteps config text Step.all page := by
  refine ⟨fun config text metadata threshold hlimit herror hpositive hsize => ?_,
    fun config text steps page hsteps => runSteps_perm hsteps page⟩
  obtain ⟨error, herror⟩ := herror
  exact parse_lightened hlimit herror hpositive hsize metadata

/-- A page that breaks off inside a block. -/
def brokenPage : Text :=
  "<apex:page><apex:pageBlock title=\"T\"><c:item value=\"\x7b!a.b\x7d\"/>".toList

def unlimited : Config := { Config.standard with sizeThreshold := 0 }

theorem parse_brokenPage : unlimited.sizeThreshold ≤ 0 ∧
    (∃ error, readTree unlimited brokenPage = .error error) ∧ (20 : Int) < brokenPage.length ∧
    parse { unlimited with sizeThreshold := 20 } brokenPage none =
      { parse unlimited brokenPage none with
        blocks := [], actionSupports := [], outputPanels := [], inputBindings :=
          [], buttonActions := []
        mode := .lightweight, warnings := [] } ∧
    (parse unlimited brokenPage none).blocks.map (·.title) = [some "T".toList] ∧
    Step.all.reverse.Perm Step.all ∧
    runSteps unlimited brokenPage Step.all.reverse (Page.empty .fallback) =
      recover unlimited brokenPage := by
  have herror : ∃ error, readTree unlimited brokenPage = .error error := by
    have hfails : (readTree unlimited brokenPage).isOk = false :=
      Text.of_characters (fun text => (readTree unlimited text).isOk = false) (by decide +kernel)
    cases htree : readTree unlimited brokenPage with
    | error error => exact ⟨error, rfl⟩
    | ok page =>
      rw [htree] at hfails
      cases hfails
  have hwarnings : rawWarnings unlimited brokenPage ++ metadataWarnings none = [] :=
    Text.of_characters (fun text => rawWarnings unlimited text ++ metadataWarnings none = [])
      (by decide +kernel)
  have hlimit : unlimited.sizeThreshold ≤ 0 := by decide
  have hsize : (20 : Int) < brokenPage.length :=
    Text.of_characters (fun text => (20 : Int) < text.length) (by decide)
  have hblocks : (parse unlimited brokenPage none).blocks.map (·.title) = [some "T".toList] :=
    Text.of_characters
      (fun text => (parse unlimited text none).blocks.map (·.title) = [some "T".toList])
      (by decide +kernel)
  have hlight := parse_light_restricts_recovery.1 unlimited brokenPage none 20 hlimit herror
    (by decide) hsize
  rw [hwarnings] at hlight
  exact ⟨hlimit, herror, hsize, hlight, hblocks, List.reverse_perm _,
    parse_light_restricts_recovery.2 unlimited brokenPage _ _ (List.reverse_perm _)⟩

end Visualforce.Page
