import Visualforce.Proofs.Page.RecoverySteps

/-! # Facts of the raw text

The number of forms, remoting, resources, scripts and template fragments depend on the text alone
and on the length that inline scripts are cut to. No reading leaves scripts or fragments for the raw
passes to keep, the forms that a walk counts are counted anew, and no later step touches any of
this.
-/
namespace Visualforce.Page

variable {config : Config} {text : Text} {page : Page}

/-- What is read from the raw text only. -/
structure RawFacts where
  formCount : Nat
  hasRemoteObjects : Bool
  hasStaticResources : Bool
  scripts : List ScriptReference
  templateFragments : List Text
deriving DecidableEq, Repr

def rawFacts (page : Page) : RawFacts :=
  ⟨page.formCount, page.hasRemoteObjects, page.hasStaticResources, page.scripts,
    page.templateFragments⟩

/-- The raw facts of a text. Where its scripts cannot be read, there are neither scripts nor
fragments. -/
def rawFactsOf (limit : Option Int) (text : Text) : RawFacts :=
  match scriptsIn limit text with
  | .ok scripts => ⟨formsIn text, hasRemoting text, hasResources text, scripts, fragmentsIn text⟩
  | .error _ => ⟨formsIn text, hasRemoting text, hasResources text, [], []⟩

theorem runStep_templateFragments (config : Config) (text : Text) (page : Page) (step : Step) :
    (runStep config text page step).templateFragments = page.templateFragments := by
  obtain ⟨panels, failures, hpanels⟩ := runStep_outputPanels config text
  cases step with
  | outputPanels => rw [hpanels]
  | settings | components | bindings | blocks | actionSupports | expressions => rfl

theorem runSteps_templateFragments (config : Config) (text : Text) (steps : List Step)
    (page : Page) :
    (runSteps config text steps page).templateFragments = page.templateFragments :=
  runSteps_preserves (P := fun after => after.templateFragments = page.templateFragments)
    (fun step after hp => (runStep_templateFragments config text after step).trans hp) steps rfl

/-- No reading finds template fragments: the walk over a tree and the steps of a recovery leave
them. -/
theorem readWith_templateFragments (config : Config) (text : Text) :
    (readWith config text).templateFragments = [] := by
  by_cases hsize : config.isOversize text = true
  · rw [readWith_oversize hsize]
    exact runSteps_templateFragments config text Step.light (Page.empty .lightweight)
  · rw [Bool.not_eq_true] at hsize
    cases htree : readTree config text with
    | ok page =>
      obtain ⟨root, -, hroot⟩ := readTree_eq_ok htree
      rw [readWith_tree hsize htree]
      exact congrArg (·.templateFragments) (ofTree_outline hroot)
    | error error =>
      have hrecover : (recover config text).templateFragments = [] :=
        runSteps_templateFragments config text Step.all (Page.empty .fallback)
      rw [readWith_fallback hsize htree]
      simp only [hrecover]

theorem readRawOrWarn_rawFacts (hscripts : page.scripts = [])
    (hfragments : page.templateFragments = []) :
    (readRawOrWarn config text page).rawFacts = rawFactsOf config.inlineScriptLength text := by
  rw [readRawOrWarn, readRaw, rawFactsOf]
  cases scriptsIn config.inlineScriptLength text with
  | error error => simp [warn, rawFacts, hscripts, hfragments]
  | ok scripts => simp [rawFacts, hfragments, fragmentsIn]

theorem nodup_rawFactsOf (limit : Option Int) (text : Text) :
    (rawFactsOf limit text).templateFragments.Nodup := by
  rw [rawFactsOf]
  cases scriptsIn limit text with
  | error error => exact List.nodup_nil
  | ok scripts => exact nodup_dedupe _

theorem finish_rawFacts (hscripts : page.scripts = []) (hfragments : page.templateFragments = []) :
    (finish config text page).rawFacts = rawFactsOf config.inlineScriptLength text := by
  have hraw : (readRawOrWarn config text page).rawFacts =
    rawFactsOf config.inlineScriptLength text :=
    readRawOrWarn_rawFacts hscripts hfragments
  have hnodup := nodup_rawFactsOf config.inlineScriptLength text
  rw [← hraw] at hnodup ⊢
  rw [finish]
  generalize readRawOrWarn config text page = read at hnodup
  -- Of the later steps only the one for sets touches a raw fact, and the fragments repeat nothing.
  have hkept : dedupe read.templateFragments = read.templateFragments := dedupe_of_nodup hnodup
  simp only [rawFacts, addDependencies, dedupeSets, rankExpressions, hkept]

theorem applyMetadata_rawFacts (document : Text) (page : Page) :
    (applyMetadata document page).rawFacts = page.rawFacts := by
  rw [applyMetadata]
  cases Metadata.read document <;> rfl

theorem parse_rawFacts (config : Config) (text : Text) (metadata : Option Text) :
    (parse config text metadata).rawFacts = rawFactsOf config.inlineScriptLength text := by
  have hfinish : (finish config text (readWith config text)).rawFacts =
      rawFactsOf config.inlineScriptLength text :=
    finish_rawFacts (readWith_isRead config text).scripts (readWith_templateFragments config text)
  rw [parse]
  cases metadata.bind nonEmpty? with
  | none => exact hfinish
  | some document => exact (applyMetadata_rawFacts document _).trans hfinish

/-- Two configurations that cut inline scripts to the same length read the same raw facts from a
source, whatever else they differ in and whatever metadata comes with it: those of the text, by a
tree, by a recovery or lightly, and also where the scripts cannot be read. -/
theorem ofSource_rawFacts_agree {config other : Config}
    (hlimit : config.inlineScriptLength = other.inlineScriptLength) (source : Source)
    (metadata others : Option Text) :
    (ofSource config source metadata).rawFacts = (ofSource other source others).rawFacts ∧
    (ofSource config source metadata).rawFacts =
      rawFactsOf config.inlineScriptLength source.toText := by
  have hfacts := parse_rawFacts config source.toText metadata
  have hothers := parse_rawFacts other source.toText others
  rw [← hlimit] at hothers
  exact ⟨hfacts.trans hothers.symm, hfacts⟩

/-- A page with a form in a comment, which its tree does not count. -/
def formPage : Text :=
  "<apex:page><!--<apex:form>--><apex:form/>".toList ++
    "<script>f()</script><apex:define name=\"D\"/></apex:page>".toList

/-- Settings under which every page of some length is read lightly. -/
def hasty : Config :=
  { Config.standard with
    sizeThreshold := 9, opaqueTags := [], customNamespaces := [], previewLength := none }

theorem ofSource_formPage : Config.standard.inlineScriptLength = hasty.inlineScriptLength ∧
    (ofSource Config.standard (.text formPage) none).mode = .tree ∧
    (ofSource hasty (.text formPage) (some "<".toList)).mode = .lightweight ∧
    (ofSource Config.standard (.text formPage) none).rawFacts =
      (ofSource hasty (.text formPage) (some "<".toList)).rawFacts ∧
    (ofSource Config.standard (.text formPage) none).rawFacts =
      ⟨2, false, false, [⟨.inlineScript, "f()".toList⟩], ["Content Definition: D".toList]⟩ := by
  have hlimit : Config.standard.inlineScriptLength = hasty.inlineScriptLength := rfl
  have hsmall : ¬Config.standard.isOversize formPage = true := by decide +kernel
  have hlarge : hasty.isOversize formPage = true := by decide +kernel
  have htree : (readTree Config.standard formPage).isOk = true := by decide +kernel
  have hfound : rawFactsOf Config.standard.inlineScriptLength formPage =
      ⟨2, false, false, [⟨.inlineScript, "f()".toList⟩], ["Content Definition: D".toList]⟩ := by
    decide +kernel
  obtain ⟨hagree, hfacts⟩ := ofSource_rawFacts_agree hlimit (.text formPage) none (some "<".toList)
  refine ⟨hlimit, ?_, ?_, hagree, hfacts.trans hfound⟩
  · rw [ofSource, Source.toText, parse_mode, readWith_mode, if_neg hsmall, if_pos htree]
  · rw [ofSource, Source.toText, parse_mode, readWith_mode, if_pos hlarge]

end Visualforce.Page
