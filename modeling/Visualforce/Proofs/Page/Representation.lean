import Mathlib.Tactic.ByContra
import Visualforce.Proofs.Expression.Ranking
import Visualforce.Proofs.Page.Degradation
import Visualforce.Proofs.Text.Dedupe
import Visualforce.Proofs.Text.Trim

/-! # What holds of every page

However a page was read, its settings are missing or not empty, its extensions are clean names, its
custom components are those of its components, and nothing is repeated in the lists that hold sets.
The first three hold as soon as a page has been read and survive the final steps; the last is what
the final steps are for.
-/
namespace Visualforce.Page
open Pattern Markup

variable {config : Config} {text : Text}

/-- A setting is missing or not empty. -/
def IsFilled (setting : Option Text) : Prop := setting ≠ some []

theorem nonEmpty?_ne (text : Text) : nonEmpty? text ≠ some [] := by
  cases text <;> simp [nonEmpty?]

theorem present?_filled (value : Option Text) : IsFilled (present? value) := by
  intro h
  obtain ⟨text, -, htext⟩ := Option.bind_eq_some_iff.mp h
  exact nonEmpty?_ne text htext

theorem or_filled {first second : Option Text} (hfirst : IsFilled first)
    (hsecond : IsFilled second) :
    IsFilled (first.or second) := by
  cases first with
  | none => exact hsecond
  | some text => exact hfirst

theorem setting?_filled (attributes : AttributeMap) (name : String) (visible : Text) :
    IsFilled (setting? attributes name visible) := or_filled (present?_filled _) (present?_filled _)

/-- An extension is a name without blanks around it and without a comma. -/
def IsExtension (name : Text) : Prop := name ≠ [] ∧ Text.IsTrimmed name ∧ ',' ∉ name

theorem not_break_of_mem_splitWhere {isBreak : Char → Bool} {text piece : Text} {c : Char}
    (hpiece : piece ∈ Text.splitWhere isBreak text) (hc : c ∈ piece) : isBreak c = false := by
  induction text generalizing piece with
  | nil =>
    have hnil : piece = [] := List.mem_singleton.mp hpiece
    rw [hnil] at hc
    cases hc
  | cons d rest ih =>
    rw [Text.splitWhere, List.foldr_cons, ← Text.splitWhere] at hpiece
    split_ifs at hpiece with hbreak
    · rcases List.mem_cons.mp hpiece with rfl | hpiece
      · cases hc
      · exact ih hpiece hc
    · rw [Bool.not_eq_true] at hbreak
      split at hpiece
      · rw [List.mem_singleton.mp hpiece, List.mem_singleton] at hc
        exact hc ▸ hbreak
      · rename_i front others hpieces
        rcases List.mem_cons.mp hpiece with rfl | hpiece
        · rcases List.mem_cons.mp hc with rfl | hc
          · exact hbreak
          · exact ih (hpieces ▸ List.mem_cons_self ..) hc
        · exact ih (hpieces ▸ List.mem_cons_of_mem _ hpiece) hc

theorem extensionsOf_clean (value : Text) : ∀ name ∈ extensionsOf value, IsExtension name := by
  intro name hname
  obtain ⟨htrimmed, hnonempty⟩ := List.mem_filter.mp hname
  obtain ⟨piece, hpiece, rfl⟩ := List.mem_map.mp htrimmed
  refine ⟨by simpa using hnonempty, Text.isTrimmed_trim piece, fun hcomma => ?_⟩
  have hbreak := not_break_of_mem_splitWhere hpiece (Text.mem_of_mem_trim hcomma)
  simp at hbreak

def customNames (config : Config) (components : List ComponentUsage) : List Text :=
  (components.filter fun usage => config.customNamespaces.contains usage.space).map (·.name)

theorem customNames_append (config : Config) (few others : List ComponentUsage) :
    customNames config (few ++ others) = customNames config few ++ customNames config others := by
  simp [customNames]

/-- What holds of a page as soon as it has been read. -/
structure IsRead (config : Config) (page : Page) : Prop where
  controller : IsFilled page.controller
  customController : IsFilled page.customController
  apiVersion : IsFilled page.apiVersion
  label : IsFilled page.label
  extensions : ∀ name ∈ page.extensions, IsExtension name
  custom : page.customComponents = customNames config page.components
  scripts : page.scripts = []

theorem empty_isRead (config : Config) (mode : Mode) : IsRead config (Page.empty mode) := by
  constructor <;> simp [Page.empty, IsFilled, customNames]

theorem ofRoot_isRead (config : Config) (head : Head) : IsRead config (ofRoot head) where
  controller := present?_filled _
  customController := present?_filled _
  apiVersion := present?_filled _
  label := present?_filled _
  extensions := extensionsOf_clean _
  custom := rfl
  scripts := rfl

theorem visitHead_custom {head : Head} {children : List Node} {walk walk' : Walk}
    (h : visitHead config head children walk = .ok walk')
    (hp : walk.page.customComponents = customNames config walk.page.components) :
    walk'.page.customComponents = customNames config walk'.page.components := by
  rw [visitHead_eq, map_eq_ok] at h
  obtain ⟨page, htag, rfl⟩ := h
  obtain ⟨es, rs, bs, cs, hattrs⟩ := visitAttributes_frame head walk.page
  have hadd : (addUsage config head (visitAttributes head walk.page)).customComponents =
      customNames config (addUsage config head (visitAttributes head walk.page)).components := by
    rw [hattrs, addUsage]
    cases usage? head with
    | none => exact hp
    | some usage =>
      simp only [visitUsage, hp, customNames_append]
      by_cases hspace : usage.space ∈ config.customNamespaces <;>
        simp [customNames, hspace]
  rcases visitTag_cases htag with ⟨-, rfl⟩ | ⟨-, rfl⟩ | ⟨-, found, -, rfl⟩ | ⟨-, -, -, rfl⟩ <;>
    exact hadd

theorem ofTree_isRead {root : Element} {page : Page} (h : ofTree config root = .ok page) :
    IsRead config page := by
  have hroot := ofRoot_isRead config root.head
  have houtline := ofTree_outline h
  obtain ⟨walk, hwalk, hpage⟩ := ofTree_eq_ok h
  have hcustom := visitAll_preserves
    (P := fun page => page.customComponents = customNames config page.components)
    (fun _ _ _ hp => hp) (fun _ _ _ _ hhead hp => visitHead_custom hhead hp) [root.head.tag]
    root.children _ walk hwalk (by
      obtain ⟨es, rs, bs, cs, hattrs⟩ := visitAttributes_frame root.head (ofRoot root.head)
      rw [hattrs]
      exact hroot.custom)
  constructor
  · have hfield : page.controller = _ := congrArg (·.controller) houtline
    exact hfield ▸ hroot.controller
  · have hfield : page.customController = _ := congrArg (·.customController) houtline
    exact hfield ▸ hroot.customController
  · have hfield : page.apiVersion = _ := congrArg (·.apiVersion) houtline
    exact hfield ▸ hroot.apiVersion
  · have hfield : page.label = _ := congrArg (·.label) houtline
    exact hfield ▸ hroot.label
  · have hfield : page.extensions = _ := congrArg (·.extensions) houtline
    exact hfield ▸ hroot.extensions
  · rw [hpage]
    exact hcustom
  · have hfield : page.scripts = _ := congrArg (·.scripts) houtline
    exact hfield ▸ hroot.scripts

theorem Step.run_isRead (text : Text) {page : Page} (h : IsRead config page) (step : Step) :
    IsRead config (step.run config text page).1 := by
  obtain ⟨hcontroller, hcustomController, hversion, hlabel, hextensions, hcustom, hscripts⟩ := h
  cases step with
  | settings =>
    refine ⟨setting?_filled _ _ _, setting?_filled _ _ _, present?_filled _, present?_filled _, ?_,
      hcustom, hscripts⟩
    simp only [Step.run, readSettings]
    split
    · exact extensionsOf_clean _
    · exact hextensions
  | components =>
    refine ⟨hcontroller, hcustomController, hversion, hlabel, hextensions, ?_, hscripts⟩
    simp only [Step.run, readComponents, hcustom]
    exact (customNames_append config _ _).symm
  | outputPanels =>
    obtain ⟨panels, error, hrun⟩ :=
      readPanels_frame config (panelOpening.hits (visible config text)) page
    rw [Step.run, hrun]
    exact ⟨hcontroller, hcustomController, hversion, hlabel, hextensions, hcustom, hscripts⟩
  | bindings | blocks | actionSupports | expressions =>
    exact ⟨hcontroller, hcustomController, hversion, hlabel, hextensions, hcustom, hscripts⟩

theorem IsRead.withWarnings {page : Page} (h : IsRead config page) (warnings : List Text) :
    IsRead config { page with warnings := warnings } :=
  ⟨h.controller, h.customController, h.apiVersion, h.label, h.extensions, h.custom, h.scripts⟩

theorem runSteps_isRead (text : Text) {page : Page} (h : IsRead config page) (steps : List Step) :
    IsRead config (runSteps config text steps page) := by
  refine runSteps_preserves (P := IsRead config) (fun step page hp => ?_) steps h
  have hrun := Step.run_isRead text hp step
  rw [runStep]
  split
  · rename_i after hafter
    rwa [hafter] at hrun
  · rename_i after error hafter
    rw [hafter] at hrun
    exact hrun.withWarnings _

theorem readTree_isRead {page : Page} (h : readTree config text = .ok page) :
    IsRead config page := by
  obtain ⟨root, -, htree⟩ := readTree_eq_ok h
  exact ofTree_isRead htree

theorem readWith_isRead (config : Config) (text : Text) : IsRead config (readWith config text) := by
  by_cases hsize : config.isOversize text = true
  · rw [readWith_oversize hsize]
    exact runSteps_isRead text (empty_isRead config .lightweight) Step.light
  · rw [Bool.not_eq_true] at hsize
    cases htree : readTree config text with
    | ok page =>
      rw [readWith_tree hsize htree]
      exact readTree_isRead htree
    | error error =>
      have hread := runSteps_isRead text (empty_isRead config .fallback) Step.all
      rw [readWith_fallback hsize htree]
      exact hread.withWarnings _

/-- What holds of a page after the final steps. -/
structure IsNormal (config : Config) (page : Page) : Prop where
  controller : IsFilled page.controller
  customController : IsFilled page.customController
  apiVersion : IsFilled page.apiVersion
  label : IsFilled page.label
  extensions : ∀ name ∈ page.extensions, IsExtension name
  custom : page.customComponents = (customNames config page.components).eraseDups
  customNodup : page.customComponents.Nodup
  templateFragments : page.templateFragments.Nodup
  expressions : page.expressions.Nodup
  ranked : page.expressions.Pairwise fun a b => Expression.rank b ≤ Expression.rank a
  inputBindings : page.inputBindings.Nodup
  buttonActions : page.buttonActions.Nodup
  entities : page.entities.Nodup
  entityFields : page.entityFields.Nodup
  scripts : page.scripts.Nodup

theorem scriptsIn_nodup {limit : Option Int} {scripts : List ScriptReference}
    (h : scriptsIn limit text = .ok scripts) : scripts.Nodup := by
  rw [scriptsIn, bind_eq_ok] at h
  obtain ⟨found, -, h⟩ := h
  rw [← Except.ok.inj h]
  exact nodup_dedupe _

/-- The raw passes set the scripts to a list without repetitions, or leave them when they fail. -/
theorem readRawOrWarn_scripts (config : Config) (text : Text) {page : Page}
    (h : page.scripts = []) :
    (readRawOrWarn config text page).scripts.Nodup := by
  rw [readRawOrWarn, readRaw]
  cases hscripts : scriptsIn config.inlineScriptLength text with
  | ok scripts => exact scriptsIn_nodup hscripts
  | error error =>
    change page.scripts.Nodup
    rw [h]
    exact List.nodup_nil

theorem rankAll_perm (expressions : List Text) :
    (Expression.rankAll expressions).Perm (dedupe expressions) := List.mergeSort_perm _ _

/-- The raw passes leave alone what holds of a page as soon as it has been read, the scripts
apart. -/
theorem readRawOrWarn_frame (config : Config) (text : Text) (page : Page) :
    ∃ forms remoting resources scripts fragments warnings, readRawOrWarn config text page =
      { page with
        formCount := forms, hasRemoteObjects := remoting, hasStaticResources := resources,
        scripts := scripts, templateFragments := fragments, warnings := warnings } := by
  rw [readRawOrWarn, readRaw]
  cases scriptsIn config.inlineScriptLength text with
  | ok scripts => exact ⟨_, _, _, _, _, _, rfl⟩
  | error error => exact ⟨_, _, _, _, _, _, rfl⟩

theorem finish_isNormal {page : Page} (h : IsRead config page) (text : Text) :
    IsNormal config (finish config text page) := by
  have hscripts := readRawOrWarn_scripts config text h.scripts
  obtain ⟨forms, remoting, resources, scripts, fragments, warnings, hraw⟩ :=
    readRawOrWarn_frame config text page
  rw [hraw] at hscripts
  rw [finish, hraw]
  exact {
    controller := h.controller
    customController := h.customController
    apiVersion := h.apiVersion
    label := h.label
    extensions := h.extensions
    custom := by
      simp only [addDependencies, dedupeSets, rankExpressions, h.custom]
      exact dedupe_eq_eraseDups _
    customNodup := nodup_dedupe _
    templateFragments := nodup_dedupe _
    expressions := (Expression.rankAll_isRanking _).nodup
    ranked := (Expression.rankAll_isRanking _).falling
    inputBindings := nodup_dedupe _
    buttonActions := nodup_dedupe _
    entities := nodup_dedupe _
    entityFields := nodup_dedupe _
    scripts := hscripts }

theorem childText?_filled (root : Xml.Element) (name : String) :
    IsFilled (childText? root name) := by
  intro h
  obtain ⟨children, -, htext⟩ := Option.bind_eq_some_iff.mp h
  rw [leadingText?.eq_def] at htext
  split at htext
  · exact nonEmpty?_ne _ htext
  · cases htext

theorem prefer_filled {own other : Option Text} (hother : IsFilled other) :
    IsFilled (prefer own other) := by
  rw [prefer]
  split
  · rename_i text htext
    exact htext ▸ present?_filled own
  · exact hother

theorem Metadata.read_filled {document : Text} {metadata : Metadata}
    (h : Metadata.read document = .ok metadata) :
    IsFilled metadata.apiVersion ∧ IsFilled metadata.label := by
  rw [Metadata.read] at h
  split at h
  · cases h
  · split_ifs at h
    cases h
    exact ⟨childText?_filled _ _, childText?_filled _ _⟩

theorem IsNormal.applyMetadata {page : Page} (h : IsNormal config page) (document : Text) :
    IsNormal config (applyMetadata document page) := by
  rw [Page.applyMetadata]
  cases hread : Metadata.read document with
  | error error => exact { h with }
  | ok metadata =>
    obtain ⟨hversion, hlabel⟩ := Metadata.read_filled hread
    exact { h with apiVersion := prefer_filled hversion, label := prefer_filled hlabel }

/-- In every mode, with every configuration and all metadata: the lists that hold sets repeat
nothing, expressions stand by falling rank, the custom components are the distinct names of the
components in custom namespaces by first occurrence, settings are missing or not empty, and
extensions are trimmed names without commas. -/
theorem ofSource_isNormal (config : Config) (source : Source) (metadata : Option Text) :
    IsNormal config (ofSource config source metadata) := by
  have hfinish := finish_isNormal (readWith_isRead config source.toText) source.toText
  rw [ofSource, parse]
  split
  · rename_i document _
    exact hfinish.applyMetadata document
  · exact hfinish

end Visualforce.Page
