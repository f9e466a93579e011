import Visualforce.Proofs.Markup.LineEndBuild
import Visualforce.Proofs.Page.Finish
import Visualforce.Proofs.Page.LineEndRaw
import Visualforce.Proofs.Page.LineEndRecovery

/-! # Line ends of pages

How the lines of a text end makes no difference to the tree that is read from it, nor to whether one
is. What is quoted from the raw text keeps its line ends: the bodies and sources of scripts, the
names of fragments and, where there is no tree, everything that is recovered but names of components
and previews of panels. Nothing else of a page depends on them, warnings apart.
-/
namespace Visualforce.Page
open Pattern Markup Digest

variable {config : Config} {text first second : Text} {page other : Page} {quote : Text}

section Quoted

/-- What a recovered page quotes from its text. -/
def quoted (page : Page) : List Text :=
  page.controller.toList ++ page.customController.toList ++ page.extensions ++
    page.apiVersion.toList ++ page.label.toList ++ page.fieldReferences.map (·.expression) ++
    page.blocks.flatMap (fun block => block.title.toList ++ block.id.toList) ++
    page.actionSupports.flatMap (fun support => support.event.toList ++ support.reRender.toList ++
      support.action.toList ++ support.status.toList) ++
    page.outputPanels.flatMap (fun panel => panel.id.toList ++ panel.layout.toList) ++
    page.expressions ++ page.inputBindings ++ page.buttonActions

theorem toList_map_unifyLineEnds (value : Option Text) :
    (value.map unifyLineEnds).toList = value.toList.map unifyLineEnds := by
  cases value <;> rfl

theorem quoted_unified (page : Page) : quoted page.unified = (quoted page).map unifyLineEnds := by
  simp only [quoted, unified, List.map_append, List.map_map, List.flatMap_map, List.map_flatMap,
    toList_map_unifyLineEnds, unifiedBlock, unifiedSupport, unifiedPanel]
  rfl

theorem map_eq_self {α : Type} {change : α → α} {values : List α}
    (h : ∀ value ∈ values, change value = value) : values.map change = values :=
  (List.map_congr_left h).trans (List.map_id' values)

theorem map_eq_self_of_clean {value : Option Text} (h : ∀ found ∈ value.toList, '\r' ∉ found) :
    value.map unifyLineEnds = value := by
  cases value with
  | none => rfl
  | some found => exact congrArg some (unifyLineEnds_eq_self_iff.mpr (h found (by simp)))

theorem unified_eq_self (h : ∀ quote ∈ quoted page, '\r' ∉ quote) : page.unified = page := by
  have htexts {values : List Text} (hclean : ∀ value ∈ values, '\r' ∉ value) :
      values.map unifyLineEnds = values :=
    map_eq_self fun value hvalue => unifyLineEnds_eq_self_iff.mpr (hclean value hvalue)
  simp only [quoted, List.forall_mem_append, List.forall_mem_map, List.forall_mem_flatMap] at h
  obtain ⟨⟨⟨⟨⟨⟨⟨⟨⟨⟨⟨hcontroller, hcustom⟩, hextensions⟩, hversion⟩, hlabel⟩, hreferences⟩, hblocks⟩,
    hsupports⟩, hpanels⟩, hexpressions⟩, hinputs⟩, hactions⟩ := h
  have hreferences' : page.fieldReferences.map unifiedReference = page.fieldReferences :=
    map_eq_self fun reference hmem => by
      rw [unifiedReference, unifyLineEnds_eq_self_iff.mpr (hreferences reference hmem)]
  have hblocks' : page.blocks.map unifiedBlock = page.blocks :=
    map_eq_self fun block hmem => by
      obtain ⟨htitle, hid⟩ := hblocks block hmem
      rw [unifiedBlock, map_eq_self_of_clean htitle, map_eq_self_of_clean hid]
  have hsupports' : page.actionSupports.map unifiedSupport = page.actionSupports :=
    map_eq_self fun support hmem => by
      obtain ⟨⟨⟨hevent, hrender⟩, haction⟩, hstatus⟩ := hsupports support hmem
      rw [unifiedSupport, map_eq_self_of_clean hevent, map_eq_self_of_clean hrender,
        map_eq_self_of_clean haction, map_eq_self_of_clean hstatus]
  have hpanels' : page.outputPanels.map unifiedPanel = page.outputPanels :=
    map_eq_self fun panel hmem => by
      obtain ⟨hid, hlayout⟩ := hpanels panel hmem
      rw [unifiedPanel, map_eq_self_of_clean hid, map_eq_self_of_clean hlayout]
  rw [unified, map_eq_self_of_clean hcontroller, map_eq_self_of_clean hcustom, htexts hextensions,
    map_eq_self_of_clean hversion, map_eq_self_of_clean hlabel, hreferences', hblocks', hsupports',
    hpanels', htexts hexpressions, htexts hinputs, htexts hactions]

theorem return_not_mem_quoted_unified (page : Page) :
    ∀ quote ∈ quoted page.unified, '\r' ∉ quote := by
  intro quote hquote
  rw [quoted_unified] at hquote
  obtain ⟨found, -, rfl⟩ := List.mem_map.mp hquote
  exact return_not_mem_unifyLineEnds found

theorem mem_quoted_finish :
    quote ∈ quoted (finish config text page) ↔ quote ∈ quoted page := by
  obtain ⟨forms, remoting, resources, scripts, fragments, warnings, hraw⟩ :=
    readRawOrWarn_frame config text page
  rw [finish, hraw]
  simp only [quoted, addDependencies, dedupeSets, rankExpressions, List.map_map, List.mem_append,
    mem_dedupe, (rankAll_perm page.expressions).mem_iff, Function.comp_def, backfill_expression]

end Quoted

/-- A page without its warnings. -/
def unwarned (page : Page) : Page := { page with warnings := [] }

/-- The digest of a page does not depend on its warnings. -/
theorem digest_unwarned (page : Page) : digest page.unwarned = digest page := rfl

section Finish

/-- A page with the given raw facts and without warnings. -/
def withRawFacts (facts : RawFacts) (page : Page) : Page :=
  { page with
    formCount := facts.formCount
    hasRemoteObjects := facts.hasRemoteObjects
    hasStaticResources := facts.hasStaticResources
    scripts := facts.scripts
    templateFragments := facts.templateFragments
    warnings := [] }

theorem withRawFacts_congr (h : page.unwarned = other.unwarned) (facts : RawFacts) :
    withRawFacts facts page = withRawFacts facts other := by
  change withRawFacts facts page.unwarned = withRawFacts facts other.unwarned
  rw [h]

/-- Warnings apart, a finished page follows from the page that was read and the raw facts. -/
theorem finish_unwarned (hscripts : page.scripts = []) (hfragments : page.templateFragments = []) :
    (finish config text page).unwarned =
      addDependencies (dedupeSets (rankExpressions
        (withRawFacts (rawFactsOf config.inlineScriptLength text) page))) := by
  rw [finish, readRawOrWarn, readRaw, rawFactsOf]
  cases scriptsIn config.inlineScriptLength text with
  | error error =>
    cases page
    dsimp only at hscripts hfragments
    rw [hscripts, hfragments]
    rfl
  | ok scripts =>
    dsimp only [withRawFacts]
    rw [hfragments, List.nil_append, fragmentsIn, dedupe_dedupe]
    rfl

/-- Metadata sets the label and the version of a page, whatever else the page holds. -/
theorem exists_parse_eq (metadata : Option Text) :
    ∃ (label version : Option Text → Option Text) (warnings : List Text), ∀ config text,
      parse config text metadata = { parse config text none with
        label := label (parse config text none).label
        apiVersion := version (parse config text none).apiVersion
        warnings := (parse config text none).warnings ++ warnings } := by
  cases hmetadata : metadata.bind nonEmpty? with
  | none =>
    refine ⟨id, id, [], fun config text => ?_⟩
    rw [List.append_nil, parse, hmetadata]
    rfl
  | some document =>
    cases hread : Metadata.read document with
    | error error =>
      refine ⟨id, id, ["Page metadata ignored: ".toList ++ error.message], fun config text => ?_⟩
      rw [parse, hmetadata]
      dsimp only
      rw [applyMetadata, hread]
      rfl
    | ok found =>
      refine ⟨(prefer · found.label), (prefer · found.apiVersion), [], fun config text => ?_⟩
      rw [List.append_nil, parse, hmetadata]
      dsimp only
      rw [applyMetadata, hread]
      rfl

theorem parse_unwarned (h : (parse config first none).unwarned =
    (parse config second none).unwarned) (metadata : Option Text) :
    (parse config first metadata).unwarned = (parse config second metadata).unwarned := by
  obtain ⟨label, version, warnings, hparse⟩ := exists_parse_eq metadata
  rw [hparse, hparse]
  exact congrArg (fun page => { page with
    label := label page.label, apiVersion := version page.apiVersion }) h

end Finish

/-- How the lines of the text end decides nothing but what is quoted from it: the text is within the
size threshold, no name or namespace that the readers look for is written with a line end, scripts
are not cut from their end and, if the page has to be recovered, no comment parts a line end. -/
structure IsSteady (config : Config) (text : Text) : Prop where
  small : config.isOversize text = false
  settled : IsSettled config text
  comments : (readWith config text).mode = .fallback → ¬PartsLineEnd (commentPattern.pieces text)
  limit : ∀ limit ∈ config.inlineScriptLength, 0 ≤ limit

/-- The page shows no carriage return of the raw text. -/
structure IsClean (page : Page) : Prop where
  scripts : ∀ script ∈ page.scripts, '\r' ∉ script.value
  fragments : ∀ fragment ∈ page.templateFragments, '\r' ∉ fragment
  recovered : page.mode = .fallback → ∀ quote ∈ quoted page, '\r' ∉ quote

instance (page : Page) : Decidable (IsClean page) :=
  decidable_of_iff ((∀ script ∈ page.scripts, '\r' ∉ script.value) ∧
    (∀ fragment ∈ page.templateFragments, '\r' ∉ fragment) ∧
    (page.mode = .fallback → ∀ quote ∈ quoted page, '\r' ∉ quote))
    ⟨fun ⟨hscripts, hfragments, hquoted⟩ => ⟨hscripts, hfragments, hquoted⟩,
      fun h => ⟨h.scripts, h.fragments, h.recovered⟩⟩

theorem isOversize_unifyLineEnds (h : config.isOversize text = false) :
    config.isOversize (unifyLineEnds text) = false := by
  rw [← Bool.not_eq_true, isOversize_iff] at h ⊢
  have hlength := length_unifyLineEnds_le text
  omega

theorem agree_readTree (h : IsSettled config text) :
    Agree Eq (readTree config text) (readTree config (unifyLineEnds text)) := by
  rw [readTree, readTree]
  have hbuild := agree_build h
  generalize build config text = first at hbuild
  generalize build config (unifyLineEnds text) = second at hbuild
  cases hbuild with
  | error error error' => exact .error _ _
  | @ok root root' hroot =>
    subst hroot
    dsimp only
    cases ofTree config root with
    | error error => exact .error _ _
    | ok page => exact .ok rfl

/-- The same tree is read from both texts, or both are recovered. -/
theorem readWith_unifyLineEnds (h : IsSteady config text) :
    (readWith config text).mode = .tree ∧
      readWith config (unifyLineEnds text) = readWith config text ∨
    (readWith config text).mode = .fallback ∧
      (readWith config (unifyLineEnds text)).unwarned =
        (readWith config text).unified.unwarned := by
  have hsmall := isOversize_unifyLineEnds h.small
  have hmode := readWith_mode config text
  rw [h.small] at hmode
  have htree := agree_readTree h.settled
  generalize hfirst : readTree config text = outcome at htree hmode
  generalize hsecond : readTree config (unifyLineEnds text) = outcome' at htree
  cases htree with
  | @ok page page' hpage =>
    subst hpage
    exact .inl ⟨hmode, by rw [readWith_tree hsmall hsecond, readWith_tree h.small hfirst]⟩
  | error error error' =>
    -- The faults may be at different places, which only the warning says.
    refine .inr ⟨hmode, ?_⟩
    rw [readWith_fallback hsmall hsecond, readWith_fallback h.small hfirst,
      recover_unifyLineEnds h.settled.tags (h.comments hmode)]
    generalize recover config text = page
    rfl

theorem mends_readWith (h : IsSteady config text) :
    Mends (fun page => page.mode = .fallback → ∀ quote ∈ quoted page, '\r' ∉ quote)
      (readWith config text).unwarned (readWith config (unifyLineEnds text)).unwarned := by
  rcases readWith_unifyLineEnds h with ⟨hmode, hread⟩ | ⟨hmode, hread⟩
  · rw [hread]
    exact .refl fun hfallback => nomatch hfallback.symm.trans hmode
  · rw [hread]
    exact ⟨fun _ => return_not_mem_quoted_unified (readWith config text), fun hclean =>
      congrArg unwarned (unified_eq_self (hclean hmode))⟩

theorem rawFacts_isClean_iff : page.rawFacts.IsClean ∧
    (page.mode = .fallback → ∀ quote ∈ quoted page, '\r' ∉ quote) ↔ IsClean page :=
  ⟨fun h => ⟨h.1.1, h.1.2, h.2⟩, fun h => ⟨⟨h.scripts, h.fragments⟩, h.recovered⟩⟩

theorem parse_none_unwarned (config : Config) (text : Text) :
    (parse config text none).unwarned =
      addDependencies (dedupeSets (rankExpressions
        (withRawFacts (rawFactsOf config.inlineScriptLength text) (readWith config text)))) :=
  finish_unwarned (readWith_isRead config text).scripts (readWith_templateFragments config text)

/-- Of the finished page only the raw facts and what was recovered can show how lines end. -/
theorem isClean_parse_iff (config : Config) (text : Text) :
    IsClean (parse config text none) ↔ (rawFactsOf config.inlineScriptLength text).IsClean ∧
      ((readWith config text).mode = .fallback →
        ∀ quote ∈ quoted (readWith config text), '\r' ∉ quote) := by
  rw [← rawFacts_isClean_iff, parse_rawFacts, parse_mode]
  have hquoted {quote : Text} : quote ∈ quoted (parse config text none) ↔
    quote ∈ quoted (readWith config text) := mem_quoted_finish
  simp only [hquoted]

theorem isClean_unwarned_iff : IsClean page.unwarned ↔ IsClean page :=
  ⟨fun h => ⟨h.scripts, h.fragments, h.recovered⟩, fun h => ⟨h.scripts, h.fragments, h.recovered⟩⟩

theorem mends_parse (h : IsSteady config text) :
    Mends IsClean (parse config text none).unwarned
      (parse config (unifyLineEnds text) none).unwarned := by
  have hraw := mends_rawFactsOf h.limit text
  have hread := mends_readWith h
  refine ⟨isClean_unwarned_iff.mpr ?_, fun hclean => ?_⟩
  · exact (isClean_parse_iff config (unifyLineEnds text)).mpr ⟨hraw.clean, hread.clean⟩
  · obtain ⟨hfacts, hquoted⟩ := (isClean_parse_iff config text).mp (isClean_unwarned_iff.mp hclean)
    rw [parse_none_unwarned, parse_none_unwarned, hraw.same hfacts, withRawFacts_congr]
    exact hread.same hquoted

/-- A page without what is quoted from raw markup in every mode, and without its warnings. -/
def unquoted (page : Page) : Page :=
  { page with scripts := [], templateFragments := [], warnings := [] }

theorem unquoted_unwarned (page : Page) : page.unwarned.unquoted = page.unquoted := rfl

theorem unquoted_parse (hmode : (readWith config text).mode = .tree) (h : IsSteady config text)
    (metadata : Option Text) : (parse config (unifyLineEnds text) metadata).unquoted =
      (parse config text metadata).unquoted := by
  have hread : readWith config (unifyLineEnds text) = readWith config text :=
    (readWith_unifyLineEnds h).elim And.right fun hfallback => nomatch hmode.symm.trans hfallback.1
  obtain ⟨label, version, warnings, hparse⟩ := exists_parse_eq metadata
  suffices hnone : (parse config (unifyLineEnds text) none).unquoted =
      (parse config text none).unquoted by
    rw [hparse, hparse]
    exact congrArg (fun page => { page with
      label := label page.label, apiVersion := version page.apiVersion }) hnone
  rw [← unquoted_unwarned, ← unquoted_unwarned (parse config text none), parse_none_unwarned,
    parse_none_unwarned, hread]
  obtain ⟨hforms, hremoting, hresources⟩ := counts_rawFactsOf config.inlineScriptLength text
  rw [withRawFacts, withRawFacts, hforms, hremoting, hresources]
  rfl

theorem unified_readWith (h : IsSteady config text) :
    (readWith config (unifyLineEnds text)).unified.unwarned =
      (readWith config text).unified.unwarned := by
  rcases readWith_unifyLineEnds h with ⟨-, hread⟩ | ⟨-, hread⟩
  · rw [hread]
  · have hagain := congrArg unified hread
    change (readWith config (unifyLineEnds text)).unified.unwarned =
      (readWith config text).unified.unified.unwarned at hagain
    rwa [unified_eq_self (return_not_mem_quoted_unified _)] at hagain

theorem mode_readWith (h : IsSteady config text) :
    (readWith config (unifyLineEnds text)).mode = (readWith config text).mode := by
  rcases readWith_unifyLineEnds h with ⟨-, hread⟩ | ⟨-, hread⟩
  · rw [hread]
  · have hmode := congrArg mode hread
    exact hmode

/-- What a page counts, and how it was read. -/
def counts (page : Page) : Mode × Nat × Bool × Bool :=
  (page.mode, page.formCount, page.hasRemoteObjects, page.hasStaticResources)

theorem counts_parse (h : IsSteady config text) (metadata : Option Text) :
    (parse config (unifyLineEnds text) metadata).counts = (parse config text metadata).counts := by
  have hraw (text : Text) : (parse config text metadata).counts = ((readWith config text).mode,
      (rawFactsOf config.inlineScriptLength text).formCount,
      (rawFactsOf config.inlineScriptLength text).hasRemoteObjects,
      (rawFactsOf config.inlineScriptLength text).hasStaticResources) := by
    rw [← parse_rawFacts config text metadata, ← parse_mode config text metadata]
    rfl
  obtain ⟨hforms, hremoting, hresources⟩ := counts_rawFactsOf config.inlineScriptLength text
  rw [hraw, hraw, mode_readWith h, hforms, hremoting, hresources]

/-- Texts that differ only in how their lines end are read in the same way, and the pages agree in
their counts. Where trees are read they agree in everything but scripts, fragments and warnings;
else what is recovered differs in its line ends only. Pages that show no carriage return agree in
everything but warnings and have one digest, and a page agrees so with that of the unified text just
if it shows none. -/
theorem parse_lineEnds (h : unifyLineEnds first = unifyLineEnds second)
    (hfirst : IsSteady config first) (hsecond : IsSteady config second) :
    (∀ metadata, (parse config first metadata).counts = (parse config second metadata).counts) ∧
    (∀ metadata, (parse config first metadata).mode = .tree →
      (parse config first metadata).unquoted = (parse config second metadata).unquoted) ∧
    (readWith config first).unified.unwarned = (readWith config second).unified.unwarned ∧
    (IsClean (parse config first none) → IsClean (parse config second none) → ∀ metadata,
      (parse config first metadata).unwarned = (parse config second metadata).unwarned ∧
      digest (parse config first metadata) = digest (parse config second metadata)) ∧
    ((parse config (unifyLineEnds first) none).unwarned = (parse config first none).unwarned ↔
      IsClean (parse config first none)) := by
  refine ⟨fun metadata => ?_, fun metadata hmode => ?_, ?_, fun hclean hclean' metadata => ?_, ?_⟩
  · rw [← counts_parse hfirst, h, counts_parse hsecond]
  · rw [parse_mode] at hmode
    have hmode' : (readWith config second).mode = .tree := by
      rw [← mode_readWith hsecond, ← h, mode_readWith hfirst, hmode]
    rw [← unquoted_parse hmode hfirst, h, unquoted_parse hmode' hsecond]
  · rw [← unified_readWith hfirst, h, unified_readWith hsecond]
  · have hunified := (mends_parse hfirst).same (isClean_unwarned_iff.mpr hclean)
    have hunified' := (mends_parse hsecond).same (isClean_unwarned_iff.mpr hclean')
    have hsame := parse_unwarned (hunified.symm.trans ((congrArg
      (fun text => (parse config text none).unwarned) h).trans hunified')) metadata
    exact ⟨hsame, by rw [← digest_unwarned, hsame, digest_unwarned]⟩
  · rw [(mends_parse hfirst).eq_iff, isClean_unwarned_iff]

/-- Without matches none can stand between a carriage return and a line feed. -/
theorem not_partsLineEnd_of_hits {κ : Type} {pattern : Pattern κ} (h : pattern.hits text = []) :
    ¬PartsLineEnd (pattern.pieces text) := by
  rintro ⟨hits, hne, hinfix⟩
  obtain ⟨hit, others, rfl⟩ := List.exists_cons_of_ne_nil hne
  have hmem : .matched hit ∈ pattern.pieces text := hinfix.subset (by simp)
  have hhit : hit ∈ pattern.hits text := List.mem_filterMap.mpr ⟨_, hmem, rfl⟩
  rw [h] at hhit
  cases hhit

/-- A page with a script of two lines. -/
def scriptPage (lineEnd : Text) : Text :=
  "<apex:page><script>a".toList ++ lineEnd ++ "b</script></apex:page>".toList

/-- A page that breaks off on its second line. -/
def openPage (lineEnd : Text) : Text :=
  "<apex:page>".toList ++ lineEnd ++ "<c:item value=\"\x7b!a.b\x7d\"/>".toList

theorem isSteady_of_small {text : Text} (hsmall : Config.standard.isOversize text = false)
    (hspaces : ∀ declared ∈ declarations (prepare Config.standard text), '\r' ∉ declared.2)
    (hcomments : (commentPattern.hits text).isEmpty) : IsSteady Config.standard text where
  small := hsmall
  settled.tags := by
    rw [CalmTags]
    decide
  settled.spaces := hspaces
  comments _ := not_partsLineEnd_of_hits (List.isEmpty_iff.mp hcomments)
  limit := by decide

theorem parse_scriptPage :
    unifyLineEnds (scriptPage ['\r', '\n']) = unifyLineEnds (scriptPage ['\n']) ∧
    IsSteady Config.standard (scriptPage ['\r', '\n']) ∧
    IsSteady Config.standard (scriptPage ['\n']) ∧
    (parse Config.standard (scriptPage ['\r', '\n']) none).mode = .tree ∧
    (parse Config.standard (scriptPage ['\r', '\n']) none).unquoted =
      (parse Config.standard (scriptPage ['\n']) none).unquoted ∧
    unifyLineEnds (openPage ['\r', '\n']) = unifyLineEnds (openPage ['\r']) ∧
    IsSteady Config.standard (openPage ['\r', '\n']) ∧
    IsSteady Config.standard (openPage ['\r']) ∧
    (parse Config.standard (openPage ['\r', '\n']) none).mode = .fallback ∧
    IsClean (parse Config.standard (openPage ['\r', '\n']) none) ∧
    IsClean (parse Config.standard (openPage ['\r']) none) ∧
    digest (parse Config.standard (openPage ['\r', '\n']) none) =
      digest (parse Config.standard (openPage ['\r']) none) := by
  have hscripts : unifyLineEnds (scriptPage ['\r', '\n']) = unifyLineEnds (scriptPage ['\n']) := by
    decide
  have hpair : IsSteady Config.standard (scriptPage ['\r', '\n']) :=
    isSteady_of_small (by decide) (by decide +kernel) (by decide +kernel)
  have hfeed : IsSteady Config.standard (scriptPage ['\n']) :=
    isSteady_of_small (by decide) (by decide +kernel) (by decide +kernel)
  have htree : (parse Config.standard (scriptPage ['\r', '\n']) none).mode = .tree := by
    decide +kernel
  have hopen : unifyLineEnds (openPage ['\r', '\n']) = unifyLineEnds (openPage ['\r']) := by decide
  have hopenPair : IsSteady Config.standard (openPage ['\r', '\n']) :=
    isSteady_of_small (by decide) (by decide +kernel) (by decide +kernel)
  have hopenReturn : IsSteady Config.standard (openPage ['\r']) :=
    isSteady_of_small (by decide) (by decide +kernel) (by decide +kernel)
  have hclean : IsClean (parse Config.standard (openPage ['\r', '\n']) none) := by decide +kernel
  have hclean' : IsClean (parse Config.standard (openPage ['\r']) none) := by decide +kernel
  have hfallback : (parse Config.standard (openPage ['\r', '\n']) none).mode = .fallback := by
    decide +kernel
  exact ⟨hscripts, hpair, hfeed, htree, (parse_lineEnds hscripts hpair hfeed).2.1 none htree, hopen,
    hopenPair, hopenReturn, hfallback, hclean, hclean',
    ((parse_lineEnds hopen hopenPair hopenReturn).2.2.2.1 hclean hclean' none).2⟩

/-- The text of a script keeps the line ends that the page has. -/
theorem parse_scriptPage_scripts :
    unifyLineEnds (scriptPage ['\r', '\n']) = unifyLineEnds (scriptPage ['\n']) ∧
      Config.standard.isOversize (scriptPage ['\r', '\n']) = false ∧
      Config.standard.isOversize (scriptPage ['\n']) = false ∧
      (parse Config.standard (scriptPage ['\r', '\n']) none).scripts ≠
        (parse Config.standard (scriptPage ['\n']) none).scripts :=
  ⟨by decide, by decide, by decide, by decide +kernel⟩

end Visualforce.Page
