import Visualforce.Proofs.Page.Metadata
import Visualforce.Proofs.Page.RawFacts

/-! # An unset limit for inline scripts

The limit for inline scripts matters to the raw passes only, and there it is needed as soon as a
script element without a source has a body. When it is unset the passes fail at such an element: the
page then has neither scripts nor template fragments and one warning more, and is otherwise the
same.
-/
namespace Visualforce.Page
open Pattern Markup

variable {text : Text} {limit : Option Int}

section Independent

variable (config : Config) (limit : Option Int)

theorem readPanels_withScriptLimit (openings : List (Hit PanelPart)) (page : Page) :
    readPanels { config with inlineScriptLength := limit } openings page =
      readPanels config openings page := by
  have hpanel : panelOf { config with inlineScriptLength := limit } = panelOf config := rfl
  induction openings generalizing page with
  | nil => rfl
  | cons opening rest ih => simp only [readPanels, hpanel, ih]

theorem runSteps_withScriptLimit (text : Text) (steps : List Step) (page : Page) :
    runSteps { config with inlineScriptLength := limit } text steps page =
      runSteps config text steps page := by
  have hrun : ∀ (step : Step) (page : Page),
      step.run { config with inlineScriptLength := limit } text page =
      step.run config text page := by
    intro step page
    cases step with
    | outputPanels => exact readPanels_withScriptLimit config limit _ page
    | settings | components | bindings | blocks | actionSupports | expressions => rfl
  have hstep : runStep { config with inlineScriptLength := limit } text = runStep config text := by
    funext page step
    rw [runStep, runStep, hrun]
  rw [runSteps, runSteps, hstep]

mutual
theorem visit_withScriptLimit (path : List Text) : (node : Node) → (walk : Walk) →
    visit { config with inlineScriptLength := limit } path node walk = visit config path node walk
  | .text content, walk => rfl
  | .element head children, walk => by
    have hhead : visitHead { config with inlineScriptLength := limit } = visitHead config := rfl
    rw [visit, visit, hhead]
    simp only [visitAll_withScriptLimit (path ++ [head.tag]) children]

theorem visitAll_withScriptLimit (path : List Text) : (nodes : List Node) → (walk : Walk) →
    visitAll { config with inlineScriptLength := limit } path nodes walk =
      visitAll config path nodes walk
  | [], walk => rfl
  | node :: rest, walk => by
    rw [visitAll, visitAll, visit_withScriptLimit path node walk]
    simp only [visitAll_withScriptLimit path rest]
end

theorem readTree_withScriptLimit (text : Text) :
    readTree { config with inlineScriptLength := limit } text = readTree config text := by
  have hprepare : prepare { config with inlineScriptLength := limit } text = prepare config text :=
    rfl
  have hbuild : build { config with inlineScriptLength := limit } text = build config text := by
    simp only [build, hprepare]
  have htree : ∀ root, ofTree { config with inlineScriptLength := limit } root =
    ofTree config root := by
    intro root
    simp only [ofTree, visitAll_withScriptLimit]
  simp only [readTree, hbuild, htree]

theorem readWith_withScriptLimit (text : Text) :
    readWith { config with inlineScriptLength := limit } text = readWith config text := by
  have hselect : Strategy.select { config with inlineScriptLength := limit } text =
    Strategy.select config text := rfl
  simp only [readWith, hselect, readTree_withScriptLimit, recover, recoverLight,
    runSteps_withScriptLimit]

end Independent

def IsInlineScript (hit : Hit ScriptPart) : Prop :=
  scriptSource.search (hit.group .attributes) = none ∧ ∃ c ∈ hit.group .body, Text.isBlank c = false

instance (hit : Hit ScriptPart) : Decidable (IsInlineScript hit) :=
  decidable_of_iff ((scriptSource.search (hit.group .attributes)).isNone ∧
    (hit.group .body).any fun c => !Text.isBlank c)
    (by simp only [Option.isNone_iff_eq_none, IsInlineScript, List.any_eq_true, Bool.not_eq_true'])

def HasInlineScript (text : Text) : Prop := ∃ hit ∈ scriptElement.hits text, IsInlineScript hit

instance (text : Text) : Decidable (HasInlineScript text) :=
  List.decidableBEx _ _

section Scripts

variable {hit : Hit ScriptPart}

theorem scriptOf_of_inline (h : IsInlineScript hit) : scriptOf none hit = .error .unset := by
  obtain ⟨hsource, c, hc, hblank⟩ := h
  have hbody : Text.trim (hit.group .body) ≠ [] := by
    rw [ne_eq, Text.trim_eq_nil_iff, Text.isBlankText, List.all_eq_true]
    intro hall
    rw [hall c hc] at hblank
    cases hblank
  obtain ⟨d, body, htrim⟩ := List.exists_cons_of_ne_nil hbody
  rw [scriptOf, hsource, htrim]
  rfl

theorem scriptOf_of_not_inline (h : ¬ IsInlineScript hit) (limit : Option Int) :
    scriptOf none hit = scriptOf limit hit := by
  rw [scriptOf, scriptOf]
  cases hsource : scriptSource.search (hit.group .attributes) with
  | some source => rfl
  | none =>
    have htrim : Text.trim (hit.group .body) = [] := by
      rw [Text.trim_eq_nil_iff, Text.isBlankText, List.all_eq_true]
      intro c hc
      rw [← Bool.not_eq_false]
      exact fun hblank => h ⟨hsource, c, hc, hblank⟩
    rw [htrim]
    rfl

theorem scriptsIn_none (text : Text) (limit : Option Int) :
    (HasInlineScript text → scriptsIn none text = .error .unset) ∧
    (¬ HasInlineScript text → scriptsIn none text = scriptsIn limit text) := by
  have hmap : ∀ hits : List (Hit ScriptPart),
      ((∃ hit ∈ hits, IsInlineScript hit) → hits.mapM (scriptOf none) = .error .unset) ∧
      ((¬ ∃ hit ∈ hits, IsInlineScript hit) → hits.mapM (scriptOf none) =
        hits.mapM (scriptOf limit)) := by
    intro hits
    induction hits with
    | nil => exact ⟨by simp, fun _ => rfl⟩
    | cons hit rest ih =>
      rw [List.mapM_cons, List.mapM_cons]
      by_cases hinline : IsInlineScript hit
      · rw [scriptOf_of_inline hinline]
        exact ⟨fun _ => rfl, fun hnone => absurd ⟨hit, List.mem_cons_self, hinline⟩ hnone⟩
      · rw [scriptOf_of_not_inline hinline limit]
        refine ⟨fun hsome => ?_, fun hnone => ?_⟩
        · obtain ⟨found, hmem, hfound⟩ := hsome
          have hrest : ∃ hit ∈ rest, IsInlineScript hit := by
            rcases List.mem_cons.mp hmem with rfl | hmem
            · exact absurd hfound hinline
            · exact ⟨found, hmem, hfound⟩
          rw [ih.1 hrest]
          -- Whatever this element gives, the rest fails, and no other failure is possible.
          cases scriptOf limit hit with
          | ok first => rfl
          | error error => cases error; rfl
        · rw [ih.2 fun ⟨found, hmem, hfound⟩ =>
            hnone ⟨found, List.mem_cons_of_mem hit hmem, hfound⟩]
  obtain ⟨hfails, hsame⟩ := hmap (scriptElement.hits text)
  refine ⟨fun h => ?_, fun h => ?_⟩
  · rw [scriptsIn, hfails h]
    rfl
  · rw [scriptsIn, scriptsIn, hsame h]

end Scripts

section Finish

variable {limit other : Option Int}

theorem finish_of_same (config : Config) (page : Page)
    (h : scriptsIn limit text = scriptsIn other text) :
    finish { config with inlineScriptLength := limit } text page =
      finish { config with inlineScriptLength := other } text page := by
  simp only [finish, readRawOrWarn, readRaw, h]

/-- Where the raw passes fail, scripts and fragments stay as they were and the failure is noted. -/
theorem finish_of_error {error : LimitError} {scripts : List ScriptReference}
    (hfails : scriptsIn limit text = .error error) (hreads : scriptsIn other text = .ok scripts)
    (config : Config)
    (page : Page) :
    finish { config with inlineScriptLength := limit } text page =
      { finish { config with inlineScriptLength := other } text page with
        scripts := page.scripts
        templateFragments := dedupe page.templateFragments
        warnings := page.warnings ++ ["Raw text passes failed: ".toList ++ error.message] } := by
  simp only [finish, readRawOrWarn, readRaw, hfails, hreads]
  rfl

end Finish

def unsetLimitWarning : Text := "Raw text passes failed: ".toList ++ LimitError.unset.message

theorem parse_withoutScriptLimit (config : Config) (text : Text) (limit : Int) :
    (¬ HasInlineScript text → parse { config with inlineScriptLength := none } text none =
      parse { config with inlineScriptLength := some limit } text none) ∧
    (HasInlineScript text → parse { config with inlineScriptLength := none } text none =
      { parse { config with inlineScriptLength := some limit } text none with
        scripts := [], templateFragments := []
        warnings := (parse { config with inlineScriptLength := some limit } text none).warnings ++
          [unsetLimitWarning] }) := by
  obtain ⟨hfails, hsame⟩ := scriptsIn_none text (some limit)
  have hread : ∀ limit, readWith { config with inlineScriptLength := limit } text =
    readWith config text :=
    fun limit => readWith_withScriptLimit config limit text
  have hparse : ∀ limit, parse { config with inlineScriptLength := limit } text none =
      finish { config with inlineScriptLength := limit } text (readWith config text) := by
    intro limit
    rw [parse, hread]
    rfl
  rw [hparse, hparse]
  refine ⟨fun hnone => finish_of_same config _ (hsame hnone), fun hinline => ?_⟩
  obtain ⟨scripts, hscripts⟩ := scriptsIn_ok (Option.isSome_some : (some limit).isSome) text
  have hwarnings :
    (finish { config with inlineScriptLength := some limit } text (readWith config text)).warnings =
      (readWith config text).warnings := by
    rw [finish_warnings_eq, rawWarnings_of_isSome (Option.isSome_some : (some limit).isSome) text,
      List.append_nil]
  rw [finish_of_error (hfails hinline) hscripts, hwarnings, (readWith_isRead config text).scripts,
    readWith_templateFragments]
  rfl

/-- A page whose script has a body. -/
def inlineScriptPage : Text :=
  "<apex:page><script>f()</script><apex:define name=\"D\"/></apex:page>".toList

/-- A page whose script has a source. -/
def linkedScriptPage : Text := "<apex:page><script src=\"a.js\">f()</script></apex:page>".toList

end Visualforce.Page
