import Visualforce.Proofs.Outcome
import Visualforce.Proofs.Page.LineEndPatterns
import Visualforce.Proofs.Page.RawFacts
import Visualforce.Proofs.Text.Dedupe

/-! # Raw facts and line ends

How the lines of a text end makes no difference to its forms, remoting and resources. Bodies and
sources of its scripts and the names of its fragments keep their line ends, and they are the only
raw facts that do.
-/
namespace Visualforce.Page
open Pattern Markup Digest

variable {α : Type} {isClean : α → Prop} {text : Text} {limit : Option Int}

/-- The second value is clean, and it is the first one if that is clean already. -/
structure Mends (isClean : α → Prop) (found other : α) : Prop where
  clean : isClean other
  same : isClean found → other = found

namespace Mends

variable {found other : α} {values others : List α}

theorem eq_iff (h : Mends isClean found other) : other = found ↔ isClean found :=
  ⟨fun heq => heq ▸ h.clean, h.same⟩

theorem refl (h : isClean found) : Mends isClean found found := ⟨h, fun _ => rfl⟩

theorem unifyLineEnds (text : Text) : Mends ('\r' ∉ ·) text (unifyLineEnds text) :=
  ⟨return_not_mem_unifyLineEnds text, unifyLineEnds_eq_self_iff.mpr⟩

theorem forall₂ (h : List.Forall₂ (Mends isClean) values others) :
    Mends (∀ value ∈ ·, isClean value) values others := by
  induction h with
  | nil => exact refl (List.forall_mem_nil _)
  | cons hvalue _ ih =>
    refine ⟨List.forall_mem_cons.mpr ⟨hvalue.clean, ih.clean⟩, fun hclean => ?_⟩
    obtain ⟨hfirst, hrest⟩ := List.forall_mem_cons.mp hclean
    rw [hvalue.same hfirst, ih.same hrest]

theorem append {more more' : List α} (h : Mends (∀ value ∈ ·, isClean value) values others)
    (hmore : Mends (∀ value ∈ ·, isClean value) more more') :
    Mends (∀ value ∈ ·, isClean value) (values ++ more) (others ++ more') := by
  refine ⟨List.forall_mem_append.mpr ⟨h.clean, hmore.clean⟩, fun hclean => ?_⟩
  obtain ⟨hvalues, hrest⟩ := List.forall_mem_append.mp hclean
  rw [h.same hvalues, hmore.same hrest]

theorem map {change : α → α} (h : ∀ value ∈ values, Mends isClean value (change value)) :
    Mends (∀ value ∈ ·, isClean value) values (values.map change) :=
  forall₂ (List.forall₂_map_right_iff.mpr (List.forall₂_same.mpr h))

theorem flatMap {κ : Type} {keys : List κ} {first second : κ → List α}
    (h : ∀ key ∈ keys, Mends (∀ value ∈ ·, isClean value) (first key) (second key)) :
    Mends (∀ value ∈ ·, isClean value) (keys.flatMap first) (keys.flatMap second) := by
  induction keys with
  | nil => exact refl (List.forall_mem_nil _)
  | cons key keys ih =>
    obtain ⟨hkey, hkeys⟩ := List.forall_mem_cons.mp h
    exact hkey.append (ih hkeys)

theorem dedupe [BEq α] [LawfulBEq α] (h : Mends (∀ value ∈ ·, isClean value) values others) :
    Mends (∀ value ∈ ·, isClean value) (dedupe values) (dedupe others) :=
  ⟨fun value hvalue => h.clean value (mem_dedupe.mp hvalue), fun hclean =>
    congrArg _ (h.same fun value hvalue => hclean value (mem_dedupe.mpr hvalue))⟩

end Mends

section Counts

theorem formsIn_unifyLineEnds (text : Text) : formsIn (unifyLineEnds text) = formsIn text :=
  (hits_unifyLineEnds ignores_formOpening text).length_eq.symm

theorem hasRemoting_unifyLineEnds (text : Text) : hasRemoting (unifyLineEnds text) =
    hasRemoting text :=
  any_has_unifyLineEnds (by decide) text

theorem hasResources_unifyLineEnds (text : Text) : hasResources (unifyLineEnds text) =
    hasResources text :=
  any_has_unifyLineEnds (by decide) text

end Counts

/-- The value of a script reference is written on one line, or on lines that end in line feeds. -/
def IsCleanScript (script : ScriptReference) : Prop := '\r' ∉ script.value

theorem captures_resourceName :
    Captures (fun other found => other = () → ∀ c ∈ found, isLineEnd c = false) resourceName := by
  have hname : PassesOnly (!isLineEnd ·) (plus wordChar : Pattern Unit) :=
    (passesOnly_one_calm (by decide) (by decide)).plus
  exact ⟨captures_exactly _, ⟨trivial, trivial⟩,
    fun _ _ hleads _ => hname.calm hleads⟩

theorem resourcesIn_unifyLineEnds (text : Text) :
    resourcesIn (unifyLineEnds text) = resourcesIn text := by
  rw [resourcesIn, resourcesIn,
    findAll_unifyLineEnds_of_captures ignores_resourceName captures_resourceName]

theorem isClean_of_mem_resourcesIn : ∀ script ∈ resourcesIn text, IsCleanScript script := by
  intro script hscript
  obtain ⟨name, hname, rfl⟩ := List.mem_map.mp hscript
  obtain ⟨hit, hhit, rfl⟩ := List.mem_map.mp hname
  exact unifyLineEnds_eq_self_iff.mp (unifyLineEnds_group captures_resourceName hhit)

theorem captures_externalUrl :
    Captures (fun _ found => ∀ c ∈ found, isLineEnd c = false) externalUrl := by
  have hurl : PassesOnly (!isLineEnd ·) (anyCase "http" ++ maybe (anyCase "s") ++ literal "://" ++
      plus (one (!Text.isBlank ·)) : Pattern Unit) :=
    (((passesOnly_caseless_calm (by decide)).append
      (passesOnly_caseless_calm (by decide)).maybe).append
        (PassesOnly.exactly (by decide))).append (passesOnly_one_calm (by decide) (by decide)).plus
  refine ⟨trivial, ⟨⟨⟨?_, ?_, trivial⟩, captures_exactly _⟩, trivial, trivial⟩,
    fun _ _ hleads => ?_⟩
  · exact (groupless_caseless _).captures
  · exact (groupless_caseless _).captures
  · exact hurl.calm hleads

theorem unifyLineEnds_externalUrl {here : Cursor} {url : Hit Unit}
    (h : externalUrl.matchAt here = some url) : unifyLineEnds (url.group ()) = url.group () := by
  refine unifyLineEnds_of_forall ?_
  rcases captures_externalUrl.group h () with hempty | hgroup
  · rw [hempty]
    exact List.forall_mem_nil _
  · exact hgroup

theorem included_unifyLineEnds (value : Text) :
    included (unifyLineEnds value) = included value := by
  rw [included, included, resourcesIn_unifyLineEnds]
  obtain ⟨hnone, hnone'⟩ | ⟨url, url', hsome, hsome', hurl⟩ :=
    rel_cases (rel_matchAt keeps_externalUrl.follows (samePlace_start value))
  · rw [hnone, hnone']
  · rw [hsome, hsome']
    dsimp only
    rw [hurl.group, unifyLineEnds_externalUrl hsome]

theorem isClean_of_mem_included {value : Text} :
    ∀ script ∈ included value, IsCleanScript script := by
  rw [included]
  split
  · split
    · rename_i hurl
      exact List.forall_mem_singleton.mpr
        (unifyLineEnds_eq_self_iff.mp (unifyLineEnds_externalUrl hurl))
    · exact List.forall_mem_nil _
  · exact isClean_of_mem_resourcesIn

theorem agree_truncate? (hlimit : ∀ n ∈ limit, 0 ≤ n) (text : Text) :
    Agree (Mends ('\r' ∉ ·)) (Text.truncate? limit text)
      (Text.truncate? limit (unifyLineEnds text)) := by
  cases limit with
  | none => exact .error _ _
  | some n =>
    exact .ok ⟨return_not_mem_truncate n (return_not_mem_unifyLineEnds text),
      truncate_unifyLineEnds (hlimit n rfl)⟩

theorem agree_scriptOf (hlimit : ∀ n ∈ limit, 0 ≤ n) {hit hit' : Hit ScriptPart}
    (h : UnifiedHit text hit hit') :
    Agree (Option.Rel (Mends IsCleanScript)) (scriptOf limit hit) (scriptOf limit hit') := by
  rw [scriptOf, scriptOf, h.group, h.group]
  obtain ⟨hnone, hnone'⟩ | ⟨source, source', hsome, hsome', hsource⟩ :=
    rel_cases (search_unifyLineEnds ignores_scriptSource (hit.group .attributes))
  · rw [hnone, hnone']
    dsimp only
    rw [trim_unifyLineEnds, nonEmpty?_unifyLineEnds]
    cases nonEmpty? (Text.trim (hit.group .body)) with
    | none => exact .ok .none
    | some body =>
      refine (agree_truncate? hlimit body).bind fun _ _ hvalue => .ok (.some ⟨hvalue.clean, ?_⟩)
      exact fun hclean => congrArg _ (hvalue.same hclean)
  · rw [hsome, hsome']
    dsimp only
    rw [hsource.group, trim_unifyLineEnds]
    exact .ok (.some ⟨return_not_mem_unifyLineEnds _, fun hclean =>
      congrArg _ (unifyLineEnds_eq_self_iff.mpr hclean)⟩)

theorem forall₂_filterMap_id {values others : List (Option α)}
    (h : List.Forall₂ (Option.Rel (Mends isClean)) values others) :
    List.Forall₂ (Mends isClean) (values.filterMap id) (others.filterMap id) := by
  induction h with
  | nil => exact .nil
  | cons hvalue _ ih =>
    cases hvalue with
    | none => exact ih
    | some hvalue => exact .cons hvalue ih

theorem agree_scriptsIn (hlimit : ∀ n ∈ limit, 0 ≤ n) (text : Text) :
    Agree (Mends (∀ script ∈ ·, IsCleanScript script)) (scriptsIn limit text)
      (scriptsIn limit (unifyLineEnds text)) := by
  have hresources : Mends (∀ script ∈ ·, IsCleanScript script) (resourcesIn text)
      (resourcesIn (unifyLineEnds text)) := by
    rw [resourcesIn_unifyLineEnds]
    exact .refl isClean_of_mem_resourcesIn
  have hincluded : Mends (∀ script ∈ ·, IsCleanScript script)
      ((includeDirective.findAll () text).flatMap included)
      ((includeDirective.findAll () (unifyLineEnds text)).flatMap included) := by
    rw [findAll_unifyLineEnds ignores_includeDirective, List.flatMap_map]
    simp only [included_unifyLineEnds]
    refine .refl fun script hscript => ?_
    obtain ⟨value, -, hvalue⟩ := List.mem_flatMap.mp hscript
    exact isClean_of_mem_included script hvalue
  have helements := Agree.mapM (hits_unifyLineEnds ignores_scriptElement text)
    (agree_scriptOf hlimit)
  rw [scriptsIn, scriptsIn]
  refine helements.bind fun _ _ hscripts => .ok ?_
  have hfound := Mends.forall₂ (forall₂_filterMap_id hscripts)
  exact ((hfound.append hincluded).append hresources).dedupe

theorem mends_fragmentsIn (text : Text) :
    Mends (∀ fragment ∈ ·, '\r' ∉ fragment) (fragmentsIn text)
      (fragmentsIn (unifyLineEnds text)) := by
  have hkinds : ∀ kind ∈ fragmentKinds, IgnoresLineEnds kind.1 ∧
      ∀ c ∈ kind.2, isLineEnd c = false := by
    simp only [fragmentKinds, List.forall_mem_cons]
    refine ⟨⟨ignores_fragment (by decide) (by decide) (blocks_exactly (by decide)), by decide⟩,
      ⟨ignores_fragment (by decide) (by decide) (blocks_exactly (by decide)), by decide⟩,
      ⟨ignores_fragment (by decide) (by decide) (blocks_exactly (by decide)), by decide⟩,
      ⟨ignores_fragment (by decide) (by decide) (blocks_exactly (by decide)), by decide⟩,
      List.forall_mem_nil _⟩
  refine Mends.dedupe (Mends.flatMap fun (pattern, label) hkind => ?_)
  obtain ⟨hpattern, hlabel⟩ := hkinds (pattern, label) hkind
  have hmap : ((pattern.findAll () (unifyLineEnds text)).map fun name =>
      label ++ ": ".toList ++ name) = ((pattern.findAll () text).map fun name =>
        label ++ ": ".toList ++ name).map unifyLineEnds := by
    rw [findAll_unifyLineEnds hpattern, List.map_map, List.map_map]
    refine List.map_congr_left fun name _ => (unifyLineEnds_append_left ?_).symm
    exact List.forall_mem_append.mpr ⟨hlabel, by decide⟩
  dsimp only
  rw [hmap]
  exact Mends.map fun value _ => .unifyLineEnds value

/-- Neither a script nor a fragment that is read from the raw text has a carriage return. -/
def RawFacts.IsClean (facts : RawFacts) : Prop :=
  (∀ script ∈ facts.scripts, IsCleanScript script) ∧
    ∀ fragment ∈ facts.templateFragments, '\r' ∉ fragment

theorem counts_rawFactsOf (limit : Option Int) (text : Text) :
    (rawFactsOf limit (unifyLineEnds text)).formCount = (rawFactsOf limit text).formCount ∧
      (rawFactsOf limit (unifyLineEnds text)).hasRemoteObjects =
        (rawFactsOf limit text).hasRemoteObjects ∧
      (rawFactsOf limit (unifyLineEnds text)).hasStaticResources =
        (rawFactsOf limit text).hasStaticResources := by
  rw [rawFactsOf, rawFactsOf, formsIn_unifyLineEnds, hasRemoting_unifyLineEnds,
    hasResources_unifyLineEnds]
  cases scriptsIn limit text <;> cases scriptsIn limit (unifyLineEnds text) <;>
    exact ⟨rfl, rfl, rfl⟩

theorem mends_rawFactsOf (hlimit : ∀ n ∈ limit, 0 ≤ n) (text : Text) :
    Mends RawFacts.IsClean (rawFactsOf limit text) (rawFactsOf limit (unifyLineEnds text)) := by
  rw [rawFactsOf, rawFactsOf, formsIn_unifyLineEnds, hasRemoting_unifyLineEnds,
    hasResources_unifyLineEnds]
  have hscripts := agree_scriptsIn hlimit text
  generalize scriptsIn limit text = first at hscripts
  generalize scriptsIn limit (unifyLineEnds text) = second at hscripts
  cases hscripts with
  | error error other => exact .refl ⟨List.forall_mem_nil _, List.forall_mem_nil _⟩
  | ok hscripts =>
    have hfragments := mends_fragmentsIn text
    refine ⟨⟨hscripts.clean, hfragments.clean⟩, fun hclean => ?_⟩
    dsimp only
    rw [hscripts.same hclean.1, hfragments.same hclean.2]

end Visualforce.Page
