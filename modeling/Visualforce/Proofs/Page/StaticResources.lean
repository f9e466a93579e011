import Visualforce.Proofs.Page.IncludeDirectives
import Visualforce.Proofs.Page.ScriptLimit
import Visualforce.Proofs.Text.Dedupe

/-! # Static resources of a page

Each static resource that a text mentions is listed once: those that the values of include
directives mention first, and then the others in the order in which they are mentioned.
-/
namespace Visualforce.Page
open Pattern Markup

variable {limit : Int} {text name : Text} {hit : Hit ScriptPart}

/-- What a script element refers to: its source, or else its body up to the limit. -/
def cutScript (limit : Int) (hit : Hit ScriptPart) : Option ScriptReference :=
  match scriptSource.search (hit.group .attributes) with
  | some source => some ⟨.externalUrl, Text.trim (source.group ())⟩
  | none => (nonEmpty? (Text.trim (hit.group .body))).map fun body =>
      ⟨.inlineScript, Text.truncate limit Text.ellipsis body⟩

theorem scriptOf_some (limit : Int) (hit : Hit ScriptPart) :
    scriptOf (some limit) hit = .ok (cutScript limit hit) := by
  rw [scriptOf, cutScript]
  cases scriptSource.search (hit.group .attributes) with
  | some source => rfl
  | none =>
    cases nonEmpty? (Text.trim (hit.group .body)) with
    | none => rfl
    | some body => rfl

theorem scriptsIn_some (limit : Int) (text : Text) : scriptsIn (some limit) text =
    .ok (dedupe ((scriptElement.hits text).filterMap (cutScript limit) ++
      (directivesIn text).flatMap included ++
      resourcesIn text)) := by
  have hmap : ∀ hits : List (Hit ScriptPart), hits.mapM (scriptOf (some limit)) =
    .ok (hits.map (cutScript limit)) := by
    intro hits
    induction hits with
    | nil => rfl
    | cons hit hits ih => rw [List.mapM_cons, scriptOf_some, ok_bind, ih]; rfl
  rw [scriptsIn, hmap, ok_bind, findAll_directives, List.filterMap_map]
  rfl

def isResource (script : ScriptReference) : Bool := script.kind == .staticResource

theorem isResource_cutScript {script : ScriptReference} (h : cutScript limit hit = some script) :
    isResource script = false := by
  rw [cutScript] at h
  split at h
  · rw [← Option.some.inj h]
    rfl
  · obtain ⟨body, -, rfl⟩ := Option.map_eq_some_iff.mp h
    rfl

theorem filter_resourcesIn (text : Text) : (resourcesIn text).filter isResource =
    resourcesIn text := by
  refine List.filter_eq_self.mpr fun script hscript => ?_
  obtain ⟨name, -, rfl⟩ := List.mem_map.mp hscript
  rfl

theorem filter_included (value : Text) : (included value).filter isResource =
    resourcesIn value := by
  rw [included]
  split
  · rename_i hnone
    rw [hnone]
    split
    · rfl
    · rfl
  · exact filter_resourcesIn value

theorem filter_cutScripts (hits : List (Hit ScriptPart)) :
    (hits.filterMap (cutScript limit)).filter isResource = [] := by
  refine List.filter_eq_nil_iff.mpr fun script hscript => ?_
  obtain ⟨hit, -, hfound⟩ := List.mem_filterMap.mp hscript
  rw [isResource_cutScript hfound]
  exact Bool.false_ne_true

theorem filter_directives (values : List Text) : (values.flatMap included).filter isResource =
    (values.flatMap resourceNames).map (⟨.staticResource, ·⟩) := by
  rw [List.filter_flatMap, List.map_flatMap]
  exact congrArg (values.flatMap ·) (funext fun value => by rw [filter_included, resourcesIn_eq])

theorem isMentioned_of_directive {value : Text} (hvalue : value ∈ directivesIn text)
    (h : name ∈ resourceNames value) :
    name ∈ resourceNames text := by
  obtain ⟨front, quote, rest, hquote, rfl⟩ := exists_of_mem_directivesIn hvalue
  have hends : EndsMention quote := by
    rcases isQuote_iff.mp hquote with rfl | rfl
    · exact ⟨by decide, by decide⟩
    · exact ⟨by decide, by decide⟩
  rw [resourceNames_append_cons hends, resourceNames_append_cons hends]
  exact List.mem_append_right _ (List.mem_append_left _ h)

theorem exists_scripts (limit : Int) (text : Text) : ∃ scripts, scriptsIn (some limit) text =
    .ok scripts ∧ scripts.Nodup ∧
    scripts.filter isResource =
      ((directivesIn text).flatMap resourceNames ++ resourceNames text).eraseDups.map
        (⟨.staticResource, ·⟩) := by
  refine ⟨_, scriptsIn_some limit text, nodup_dedupe _, ?_⟩
  have hinjective : Function.Injective (⟨.staticResource, ·⟩ : Text → ScriptReference) :=
    fun _ _ h => (ScriptReference.mk.inj h).2
  rw [filter_dedupe, List.filter_append, List.filter_append, filter_cutScripts, filter_directives,
    filter_resourcesIn, resourcesIn_eq, List.nil_append, ← List.map_append, dedupe_map hinjective,
    dedupe_eq_eraseDups]

theorem mem_iff_isMentioned {scripts : List ScriptReference} (h : scripts.filter isResource =
    ((directivesIn text).flatMap resourceNames ++ resourceNames text).eraseDups.map
      (⟨.staticResource, ·⟩)) :
    ⟨.staticResource, name⟩ ∈ scripts ↔ IsMentioned text name := by
  have hfilter : ⟨.staticResource, name⟩ ∈ scripts.filter isResource ↔
    ⟨.staticResource, name⟩ ∈ scripts := by
    rw [List.mem_filter]
    exact and_iff_left rfl
  rw [← hfilter, h, ← mem_resourceNames_iff, List.mem_map]
  simp only [List.mem_eraseDups, List.mem_append, List.mem_flatMap, ScriptReference.mk.injEq,
    true_and, exists_eq_right]
  constructor
  · rintro (⟨value, hvalue, hname⟩ | hname)
    · exact isMentioned_of_directive hvalue hname
    · exact hname
  · exact .inr

theorem exists_limit {limit : Option Int} {scripts : List ScriptReference}
    (h : scriptsIn limit text = .ok scripts) :
    ∃ limit, scriptsIn (some limit) text = .ok scripts := by
  cases limit with
  | some limit => exact ⟨limit, h⟩
  | none =>
    obtain ⟨hfails, hsame⟩ := scriptsIn_none text (some 0)
    by_cases hinline : HasInlineScript text
    · rw [hfails hinline] at h
      cases h
    · exact ⟨0, hsame hinline ▸ h⟩

theorem hasResources_of_isMentioned (h : IsMentioned text name) : hasResources text = true := by
  obtain ⟨-, -, front, rest, rfl, -⟩ := h
  refine List.any_eq_true.mpr ⟨resourceMark, List.mem_cons_self, Text.has_iff_isInfix.mpr ?_⟩
  exact ⟨front, name ++ rest, by rw [List.append_assoc]⟩

theorem scripts_ofSource (config : Config) (source : Source) (metadata : Option Text) :
    (ofSource config source metadata).scripts =
      (rawFactsOf config.inlineScriptLength source.toText).scripts :=
  congrArg RawFacts.scripts (parse_rawFacts config source.toText metadata)

theorem hasStaticResources_of_mem {config : Config} {source : Source} {metadata : Option Text}
    (h : ⟨.staticResource, name⟩ ∈ (ofSource config source metadata).scripts) :
    (ofSource config source metadata).hasStaticResources = true := by
  have hresources : (ofSource config source metadata).hasStaticResources =
      (rawFactsOf config.inlineScriptLength source.toText).hasStaticResources :=
    congrArg RawFacts.hasStaticResources (parse_rawFacts config source.toText metadata)
  rw [scripts_ofSource, rawFactsOf] at h
  rw [hresources, rawFactsOf]
  cases hread : scriptsIn config.inlineScriptLength source.toText with
  | error error => simp [hread] at h
  | ok scripts =>
    rw [hread] at h
    obtain ⟨limit, hlimit⟩ := exists_limit hread
    obtain ⟨_, hsame, -, hlisted⟩ := exists_scripts limit source.toText
    obtain rfl := Except.ok.inj (hlimit.symm.trans hsame)
    exact hasResources_of_isMentioned ((mem_iff_isMentioned hlisted).mp h)

/-- A page with resources in directives, behind an image. -/
def resourcePage : Text :=
  "<apex:page><img src=\"\x7b!$Resource.logo\x7d\"/>".toList ++
  "<apex:includeScript value='\x7b!URLFOR($Resource.jq, 1)\x7d'/>".toList ++
  "<apex:stylesheet value=\"\x7b!$Resource.site_css\x7d\"/>".toList ++
  "$Resource.jq</apex:page>".toList

end Visualforce.Page
