import Mathlib.Tactic.ByContra
import Visualforce.Page.Source
import Visualforce.Proofs.Page.Walk

/-! # How reading degrades

A page is read by its tree when it is not oversized and the tree can be built and walked, and
recovered from patterns otherwise; why the tree failed is the first warning. With all limits set
nothing else can fail, so the only other warning is about the metadata.
-/
namespace Visualforce.Page
open Pattern Markup

variable {config : Config} {text : Text}

/-- All limits are set. -/
def HasLimits (config : Config) : Prop :=
  HasPreviewLimits config ∧ config.inlineScriptLength.isSome

instance (config : Config) : Decidable (HasLimits config) := inferInstanceAs (Decidable (_ ∧ _))

theorem readPanels_appends (config : Config) (openings : List (Hit PanelPart)) :
    ∃ panels error, ∀ page, readPanels config openings page =
      ({ page with outputPanels := page.outputPanels ++ panels }, error) := by
  induction openings with
  | nil => exact ⟨[], none, fun page => by rw [readPanels, List.append_nil]⟩
  | cons opening rest ih =>
    cases hpanel : panelOf config opening with
    | error error => exact ⟨[], some error, fun page => by rw [readPanels, hpanel, List.append_nil]⟩
    | ok panel =>
      obtain ⟨panels, error, h⟩ := ih
      refine ⟨panel :: panels, error, fun page => ?_⟩
      rw [readPanels, hpanel]
      simp only [h, List.append_assoc, List.singleton_append]

theorem readPanels_frame (config : Config) (openings : List (Hit PanelPart)) (page : Page) :
    ∃ panels error, readPanels config openings page =
      ({ page with outputPanels := panels }, error) := by
  obtain ⟨panels, error, h⟩ := readPanels_appends config openings
  exact ⟨_, error, h page⟩

theorem panelOf_ok (h : config.previewLength.isSome) (opening : Hit PanelPart) :
    ∃ panel, panelOf config opening = .ok panel := by
  rw [panelOf]
  cases nonEmpty? (panelBody opening) with
  | none => exact ⟨_, rfl⟩
  | some body =>
    obtain ⟨cut, hcut⟩ := Text.truncate?_of_isSome h body
    exact ⟨_, by simp only [hcut]; rfl⟩

theorem readPanels_ok (h : config.previewLength.isSome) (openings : List (Hit PanelPart))
    (page : Page) : (readPanels config openings page).2 = none := by
  induction openings generalizing page with
  | nil => rfl
  | cons opening rest ih =>
    obtain ⟨panel, hpanel⟩ := panelOf_ok h opening
    rw [readPanels, hpanel]
    exact ih _

/-- A step leaves the mode and the warnings alone; only its failure is noted. -/
theorem Step.run_mode (config : Config) (text : Text) (step : Step) (page : Page) :
    (step.run config text page).1.mode = page.mode ∧
      (step.run config text page).1.warnings = page.warnings := by
  cases step with
  | outputPanels =>
    obtain ⟨panels, error, h⟩ :=
      readPanels_frame config (panelOpening.hits (visible config text)) page
    rw [Step.run, h]
    exact ⟨rfl, rfl⟩
  | settings | components | bindings | blocks | actionSupports | expressions => exact ⟨rfl, rfl⟩

theorem Step.run_ok (h : config.previewLength.isSome) (text : Text) (step : Step) (page : Page) :
    (step.run config text page).2 = none := by
  cases step with
  | outputPanels => exact readPanels_ok h _ page
  | settings | components | bindings | blocks | actionSupports | expressions => rfl

theorem runSteps_preserves {P : Page → Prop}
    (hstep : ∀ step page, P page → P (runStep config text page step)) (steps : List Step)
    {page : Page} (hp : P page) : P (runSteps config text steps page) := by
  induction steps generalizing page with
  | nil => exact hp
  | cons step rest ih => exact ih (hstep step page hp)

theorem runStep_mode (config : Config) (text : Text) (page : Page) (step : Step) :
    (runStep config text page step).mode = page.mode := by
  have hmode := (Step.run_mode config text step page).1
  rw [runStep]
  split
  · rename_i after h
    rwa [h] at hmode
  · rename_i after error h
    rw [h] at hmode
    exact hmode

theorem runStep_warnings (h : config.previewLength.isSome) (text : Text) (page : Page)
    (step : Step) :
    (runStep config text page step).warnings = page.warnings := by
  have hkeep := (Step.run_mode config text step page).2
  have hok := Step.run_ok h text step page
  rw [runStep]
  split
  · rename_i after hrun
    rwa [hrun] at hkeep
  · rename_i after error hrun
    rw [hrun] at hok
    cases hok

theorem runSteps_mode (config : Config) (text : Text) (steps : List Step) (page : Page) :
    (runSteps config text steps page).mode = page.mode :=
  runSteps_preserves (P := fun after => after.mode = page.mode)
    (fun step after hp => (runStep_mode config text after step).trans hp) steps rfl

theorem runSteps_warnings (h : config.previewLength.isSome) (text : Text) (steps : List Step)
    (page : Page) : (runSteps config text steps page).warnings = page.warnings :=
  runSteps_preserves (P := fun after => after.warnings = page.warnings)
    (fun step after hp => (runStep_warnings h text after step).trans hp) steps rfl

theorem scriptOf_ok {limit : Option Int} (h : limit.isSome) (hit : Hit ScriptPart) :
    ∃ found, scriptOf limit hit = .ok found := by
  rw [scriptOf]
  split
  · exact ⟨_, rfl⟩
  · split
    · rename_i body _
      obtain ⟨cut, hcut⟩ := Text.truncate?_of_isSome h body
      exact ⟨_, by rw [hcut]; rfl⟩
    · exact ⟨_, rfl⟩

theorem scriptsIn_ok {limit : Option Int} (h : limit.isSome) (text : Text) :
    ∃ scripts, scriptsIn limit text = .ok scripts := by
  have hmap : ∀ hits : List (Hit ScriptPart), ∃ found, hits.mapM (scriptOf limit) = .ok found := by
    intro hits
    induction hits with
    | nil => exact ⟨[], rfl⟩
    | cons hit rest ih =>
      obtain ⟨first, hfirst⟩ := scriptOf_ok h hit
      obtain ⟨others, hothers⟩ := ih
      exact ⟨first :: others, by rw [List.mapM_cons, hfirst, ok_bind, hothers]; rfl⟩
  obtain ⟨found, hfound⟩ := hmap (scriptElement.hits text)
  exact ⟨_, by rw [scriptsIn, hfound]; rfl⟩

theorem readRawOrWarn_mode (config : Config) (text : Text) (page : Page) :
    (readRawOrWarn config text page).mode = page.mode := by
  rw [readRawOrWarn, readRaw]
  cases scriptsIn config.inlineScriptLength text <;> rfl

def rawWarnings (config : Config) (text : Text) : List Text :=
  match scriptsIn config.inlineScriptLength text with
  | .ok _ => []
  | .error error => ["Raw text passes failed: ".toList ++ error.message]

theorem rawWarnings_of_isSome (h : config.inlineScriptLength.isSome) (text : Text) :
    rawWarnings config text = [] := by
  obtain ⟨scripts, hscripts⟩ := scriptsIn_ok h text
  rw [rawWarnings, hscripts]

theorem readRawOrWarn_warnings (config : Config) (text : Text) (page : Page) :
    (readRawOrWarn config text page).warnings = page.warnings ++ rawWarnings config text := by
  rw [readRawOrWarn, readRaw, rawWarnings]
  cases scriptsIn config.inlineScriptLength text with
  | ok scripts => exact (List.append_nil _).symm
  | error error => rfl

theorem finish_mode (config : Config) (text : Text) (page : Page) :
    (finish config text page).mode = page.mode := by
  simp only [finish, addDependencies, dedupeSets, rankExpressions]
  exact readRawOrWarn_mode config text page

theorem finish_warnings_eq (config : Config) (text : Text) (page : Page) :
    (finish config text page).warnings = page.warnings ++ rawWarnings config text := by
  simp only [finish, addDependencies, dedupeSets, rankExpressions]
  exact readRawOrWarn_warnings config text page

/-- The final steps only append warnings, and with the limit set none. -/
theorem finish_warnings (config : Config) (text : Text) (page : Page) :
    ∃ more, (finish config text page).warnings = page.warnings ++ more ∧
      (config.inlineScriptLength.isSome → more = []) :=
  ⟨_, finish_warnings_eq config text page, fun h => rawWarnings_of_isSome h text⟩

/-- The warning about metadata that cannot be read. -/
def metadataWarnings (metadata : Option Text) : List Text :=
  match metadata.bind nonEmpty? with
  | none => []
  | some metadata =>
    match Metadata.read metadata with
    | .error error => ["Page metadata ignored: ".toList ++ error.message]
    | .ok _ => []

theorem parse_mode (config : Config) (text : Text) (metadata : Option Text) :
    (parse config text metadata).mode = (readWith config text).mode := by
  refine Eq.trans ?_ (finish_mode config text _)
  rw [parse]
  split
  · rename_i metadata _
    rw [applyMetadata]
    cases Metadata.read metadata <;> rfl
  · rfl

theorem parse_warnings (config : Config) (text : Text) (metadata : Option Text) :
    (parse config text metadata).warnings =
      (finish config text (readWith config text)).warnings ++ metadataWarnings metadata := by
  rw [parse, metadataWarnings]
  split
  · rename_i metadata h
    simp only [h, applyMetadata]
    cases Metadata.read metadata with
    | error error => rfl
    | ok found => simp
  · rename_i h
    simp [h]

theorem isOversize_iff : config.isOversize text = true ↔
    0 < config.sizeThreshold ∧ config.sizeThreshold < text.length := by
  simp [Config.isOversize]

theorem readWith_oversize (h : config.isOversize text = true) :
    readWith config text = recoverLight config text := by
  simp [readWith, Strategy.select, h]

theorem readWith_tree (h : config.isOversize text = false) {page : Page}
    (hpage : readTree config text = .ok page) : readWith config text = page := by
  simp [readWith, Strategy.select, h, hpage]

theorem readWith_fallback (h : config.isOversize text = false) {error : TreeError}
    (herror : readTree config text = .error error) :
    readWith config text = { recover config text with
      warnings := error.warning :: (recover config text).warnings } := by
  simp [readWith, Strategy.select, h, herror]

theorem readTree_eq_ok {page : Page} (h : readTree config text = .ok page) :
    ∃ root, build config text = .ok root ∧ ofTree config root = .ok page := by
  rw [readTree] at h
  split at h
  · cases h
  · rename_i root hroot
    cases htree : ofTree config root with
    | error error => rw [htree] at h; cases h
    | ok found =>
      rw [htree] at h
      exact ⟨root, hroot, by rw [htree, Except.ok.inj h]⟩

theorem readTree_mode {page : Page} (h : readTree config text = .ok page) :
    page.mode = .tree ∧ page.warnings = [] := by
  obtain ⟨root, -, htree⟩ := readTree_eq_ok h
  have houtline := ofTree_outline htree
  exact ⟨congrArg (·.mode) houtline, congrArg (·.warnings) houtline⟩

/-- Why the tree of a page that is not oversized cannot be read. -/
def treeWarnings (config : Config) (text : Text) : List Text :=
  if config.isOversize text then []
  else
    match readTree config text with
    | .ok _ => []
    | .error error => [error.warning]

theorem readWith_warnings (config : Config) (text : Text) :
    ∃ more, (readWith config text).warnings = treeWarnings config text ++ more ∧
      (config.previewLength.isSome → more = []) := by
  by_cases hsize : config.isOversize text = true
  · refine ⟨_, by simp only [treeWarnings, if_pos hsize]; rfl, fun h => ?_⟩
    rw [readWith_oversize hsize]
    exact runSteps_warnings h text Step.light (Page.empty .lightweight)
  · rw [Bool.not_eq_true] at hsize
    cases htree : readTree config text with
    | ok page =>
      refine ⟨[], ?_, fun _ => rfl⟩
      simp [readWith_tree hsize htree, treeWarnings, hsize, htree, (readTree_mode htree).2]
    | error error =>
      refine ⟨(recover config text).warnings, ?_, fun h => ?_⟩
      · simp [readWith_fallback hsize htree, treeWarnings, hsize, htree]
      · exact runSteps_warnings h text Step.all (Page.empty .fallback)

theorem readWith_mode (config : Config) (text : Text) : (readWith config text).mode =
    if config.isOversize text then .lightweight
    else if (readTree config text).isOk then .tree else .fallback := by
  by_cases hsize : config.isOversize text = true
  · rw [readWith_oversize hsize, if_pos hsize]
    exact runSteps_mode config text Step.light (Page.empty .lightweight)
  · rw [if_neg hsize]
    rw [Bool.not_eq_true] at hsize
    cases htree : readTree config text with
    | ok page =>
      rw [readWith_tree hsize htree]
      exact (readTree_mode htree).1
    | error error =>
      have hmode : (recover config text).mode = .fallback :=
        runSteps_mode config text Step.all (Page.empty .fallback)
      rw [readWith_fallback hsize htree]
      simp only [hmode]
      rfl

theorem parse_head_warning (error : TreeError) (hsize : config.isOversize text = false)
    (herror : readTree config text = .error error) (metadata : Option Text) :
    (parse config text metadata).warnings.head? = some error.warning := by
  obtain ⟨more, hread, -⟩ := readWith_warnings config text
  obtain ⟨others, hfinish, -⟩ := finish_warnings config text (readWith config text)
  have hhead : treeWarnings config text = [error.warning] := by simp [treeWarnings, hsize, herror]
  rw [parse_warnings, hfinish, hread, hhead]
  rfl

/-- Every source yields a page. Its mode tells how it was read: oversized markup is read lightly,
other markup by its tree if it has one that can be walked, and from patterns if not. Then the first
warning says why, in the words of the failure to build the tree or to walk it. With all limits set
the only other warning is a last one about the metadata. -/
theorem ofSource_degrades (config : Config) (source : Source) (metadata : Option Text) :
    let text := source.toText
    let page := ofSource config source metadata
    (page.mode = .lightweight ↔ 0 < config.sizeThreshold ∧ config.sizeThreshold < text.length) ∧
    (config.isOversize text = false →
      (page.mode = .tree ↔ ∃ read, readTree config text = .ok read) ∧
      (page.mode = .fallback ↔ ∃ error, readTree config text = .error error) ∧
      (∀ error, build config text = .error error →
        page.warnings.head? = some ("Tree extraction failed: ".toList ++ error.message)) ∧
      (∀ document, Xml.read (prepare config text) = .ok document → depthLimit < document.depth →
        page.warnings.head? =
          some "Tree extraction failed: Markup nesting is too deep to build a tree".toList) ∧
      (∀ root error, build config text = .ok root → ofTree config root = .error error →
        page.warnings.head? = some ("Tree traversal failed: ".toList ++ error.message))) ∧
    (HasLimits config →
      page.warnings = (if config.isOversize text then [] else
          match build config text with
          | .error error => ["Tree extraction failed: ".toList ++ error.message]
          | .ok _ => []) ++
        match metadata.bind nonEmpty? with
        | none => []
        | some document =>
          match Metadata.read document with
          | .error error => ["Page metadata ignored: ".toList ++ error.message]
          | .ok _ => []) := by
  intro text page
  have hmode : page.mode = _ := (parse_mode config text metadata).trans (readWith_mode config text)
  refine ⟨?_, fun hsize => ⟨?_, ?_, ?_, ?_, ?_⟩, fun hlimits => ?_⟩
  · rw [hmode, ← isOversize_iff]
    split_ifs <;> simp_all
  · rw [hmode, hsize]
    cases readTree config text <;> simp [Except.isOk, Except.toBool]
  · rw [hmode, hsize]
    cases readTree config text <;> simp [Except.isOk, Except.toBool]
  · intro error herror
    exact parse_head_warning (.build error) hsize (by rw [readTree, herror]) metadata
  · intro document hread hdeep
    have hbuild : build config text = .error .tooDeep := by
      simp only [build, hread, if_pos hdeep]
    exact parse_head_warning (.build .tooDeep) hsize (by rw [readTree, hbuild]) metadata
  · intro root error hbuild herror
    exact parse_head_warning (.traversal error) hsize
      (by simp only [readTree, hbuild, herror]) metadata
  · obtain ⟨more, hread, hnone⟩ := readWith_warnings config text
    obtain ⟨others, hfinish, hnone'⟩ := finish_warnings config text (readWith config text)
    have hwarnings : page.warnings = _ := parse_warnings config text metadata
    rw [hwarnings, hfinish, hread, hnone hlimits.1.1, hnone' hlimits.2, List.append_nil,
      List.append_nil]
    refine congrArg (· ++ metadataWarnings metadata) ?_
    -- With the preview limits set only the building of the tree can fail.
    rw [treeWarnings, readTree]
    split_ifs
    · rfl
    · cases build config text with
      | error error => rfl
      | ok root =>
        obtain ⟨read, htree⟩ := ofTree_ok hlimits.1 root
        simp only [htree]

/-- Without any markup there is no tree. -/
theorem ofSource_missing :
    HasLimits Config.standard ∧ Config.standard.isOversize Source.missing.toText = false ∧
      (ofSource Config.standard .missing none).mode = .fallback ∧
      (ofSource Config.standard .missing none).warnings =
        ["Tree extraction failed: ".toList ++
          "Markup is not well-formed: no element found: line 1, column 0".toList] := by
  have hlimits : HasLimits Config.standard := by decide
  have hsize : Config.standard.isOversize Source.missing.toText = false := by decide
  have herror : build Config.standard [] = .error (.malformed ⟨.noElement, []⟩ []) := by rfl
  obtain ⟨-, hread, hwarnings⟩ := ofSource_degrades Config.standard .missing none
  obtain ⟨-, hfallback, -⟩ := hread hsize
  refine ⟨hlimits, hsize, hfallback.mpr ⟨_, by simp only [Source.toText, readTree, herror]; rfl⟩,
    ?_⟩
  rw [hwarnings hlimits, hsize]
  simp only [Source.toText, herror]
  exact Text.of_characters (fun message => (if false = true then [] else
    ["Tree extraction failed: ".toList ++ (BuildError.malformed ⟨.noElement, []⟩ []).message]) ++
      [] = ["Tree extraction failed: ".toList ++ message]) (by decide)

end Visualforce.Page
