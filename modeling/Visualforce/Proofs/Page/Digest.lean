import Visualforce.Page.Model
import Visualforce.Proofs.Data.Canonical

/-! # Digests of pages

What the digest of a page tells apart: everything but the mode, the warnings and the attributes that
have the name of a volatile field.
-/
namespace Visualforce
open Value Digest

/-- The usages hold the same, but for the attributes of the ignored names. -/
structure ComponentUsage.SameContent (ignored : List Text) (usage other : ComponentUsage) :
    Prop where
  space : usage.space = other.space
  name : usage.name = other.name
  attributes : ∀ name ∉ ignored, usage.attributes.lookup name = other.attributes.lookup name

structure PageBlock.SameContent (ignored : List Text) (block other : PageBlock) : Prop where
  title : block.title = other.title
  id : block.id = other.id
  components : List.Forall₂ (ComponentUsage.SameContent ignored) block.components other.components

/-- The pages hold the same in every field besides their modes and warnings, but for the attributes
of the ignored names. -/
structure Page.SameContent (ignored : List Text) (page other : Page) : Prop where
  controller : page.controller = other.controller
  customController : page.customController = other.customController
  extensions : page.extensions = other.extensions
  apiVersion : page.apiVersion = other.apiVersion
  label : page.label = other.label
  components : List.Forall₂ (ComponentUsage.SameContent ignored) page.components other.components
  fieldReferences : page.fieldReferences = other.fieldReferences
  blocks : List.Forall₂ (PageBlock.SameContent ignored) page.blocks other.blocks
  actionSupports : page.actionSupports = other.actionSupports
  outputPanels : page.outputPanels = other.outputPanels
  scripts : page.scripts = other.scripts
  formCount : page.formCount = other.formCount
  hasRemoteObjects : page.hasRemoteObjects = other.hasRemoteObjects
  hasStaticResources : page.hasStaticResources = other.hasStaticResources
  templateFragments : page.templateFragments = other.templateFragments
  expressions : page.expressions = other.expressions
  inputBindings : page.inputBindings = other.inputBindings
  buttonActions : page.buttonActions = other.buttonActions
  customComponents : page.customComponents = other.customComponents
  entities : page.entities = other.entities
  entityFields : page.entityFields = other.entityFields

structure Page.HasDistinctAttributes (page : Page) : Prop where
  components : ∀ usage ∈ page.components, (usage.attributes.map (·.1)).Nodup
  blocks : ∀ block ∈ page.blocks, ∀ usage ∈ block.components, (usage.attributes.map (·.1)).Nodup

theorem ComponentUsage.hasDistinctNames_toValue {usage : ComponentUsage}
    (h : (usage.attributes.map (·.1)).Nodup) : usage.toValue.HasDistinctNames := by
  refine (hasDistinctNames_record (of_decide_eq_true rfl)).mpr ?_
  simp only [List.mem_cons, List.not_mem_nil, or_false, forall_eq_or_imp, forall_eq]
  refine ⟨trivial, trivial, hasDistinctNames_object.mpr ⟨?_, ?_⟩⟩
  · rwa [List.map_map]
  · exact List.forall_mem_map.mpr fun _ _ => trivial

theorem PageBlock.hasDistinctNames_toValue {block : PageBlock}
    (h : ∀ usage ∈ block.components, (usage.attributes.map (·.1)).Nodup) :
    block.toValue.HasDistinctNames := by
  refine (hasDistinctNames_record (of_decide_eq_true rfl)).mpr ?_
  simp only [List.mem_cons, List.not_mem_nil, or_false, forall_eq_or_imp, forall_eq,
    hasDistinctNames_ofText?, true_and, hasDistinctNames_list, List.forall_mem_map]
  exact fun usage husage => usage.hasDistinctNames_toValue (h usage husage)

theorem FieldReference.hasDistinctNames_toValue (reference : FieldReference) :
    reference.toValue.HasDistinctNames := by
  refine (hasDistinctNames_record (of_decide_eq_true rfl)).mpr ?_
  simp only [List.mem_cons, List.not_mem_nil, or_false, forall_eq_or_imp, forall_eq,
    hasDistinctNames_ofText?, and_true]
  exact ⟨trivial, trivial⟩

theorem ActionSupport.hasDistinctNames_toValue (support : ActionSupport) :
    support.toValue.HasDistinctNames := by
  refine (hasDistinctNames_record (of_decide_eq_true rfl)).mpr ?_
  simp only [List.mem_cons, List.not_mem_nil, or_false, forall_eq_or_imp, forall_eq,
    hasDistinctNames_ofText?, and_true]

theorem OutputPanel.hasDistinctNames_toValue (panel : OutputPanel) :
    panel.toValue.HasDistinctNames := by
  refine (hasDistinctNames_record (of_decide_eq_true rfl)).mpr ?_
  simp only [List.mem_cons, List.not_mem_nil, or_false, forall_eq_or_imp, forall_eq,
    hasDistinctNames_ofText?, and_true]

theorem ScriptReference.hasDistinctNames_toValue (script : ScriptReference) :
    script.toValue.HasDistinctNames := by
  refine (hasDistinctNames_record (of_decide_eq_true rfl)).mpr ?_
  simp only [List.mem_cons, List.not_mem_nil, or_false, forall_eq_or_imp, forall_eq]
  exact ⟨trivial, trivial⟩

theorem Page.hasDistinctNames_toValue {page : Page} (h : page.HasDistinctAttributes) :
    page.toValue.HasDistinctNames := by
  refine (hasDistinctNames_record (of_decide_eq_true rfl)).mpr ?_
  simp only [List.mem_cons, List.not_mem_nil, or_false, forall_eq_or_imp, forall_eq,
    hasDistinctNames_ofText?, hasDistinctNames_ofTexts, true_and, hasDistinctNames_list,
    List.forall_mem_map, FieldReference.hasDistinctNames_toValue,
    ActionSupport.hasDistinctNames_toValue, OutputPanel.hasDistinctNames_toValue,
    ScriptReference.hasDistinctNames_toValue, implies_true]
  refine ⟨fun usage husage => usage.hasDistinctNames_toValue (h.components usage husage),
    fun block hblock => block.hasDistinctNames_toValue (h.blocks block hblock), ?_⟩
  exact ⟨trivial, trivial, trivial, trivial, trivial⟩

theorem ComponentUsage.agrees_toValue {usage other : ComponentUsage} :
    Agrees volatileFields usage.toValue other.toValue ↔ usage.SameContent volatileFields other := by
  refine (agrees_record ?_ ?_).trans ?_
  · rfl
  · exact of_decide_eq_true rfl
  · simp +decide only [List.forall₂_cons, List.forall₂_nil_left_iff, and_true, not_false_eq_true,
      forall_const, agrees_text, agrees_entries fun _ => rfl]
    constructor
    · rintro ⟨hspace, hname, hattributes⟩
      exact ⟨hspace, hname, hattributes⟩
    · rintro ⟨hspace, hname, hattributes⟩
      exact ⟨hspace, hname, hattributes⟩

theorem PageBlock.agrees_toValue {block other : PageBlock} :
    Agrees volatileFields block.toValue other.toValue ↔ block.SameContent volatileFields other := by
  refine (agrees_record ?_ ?_).trans ?_
  · rfl
  · exact of_decide_eq_true rfl
  · simp +decide only [List.forall₂_cons, List.forall₂_nil_left_iff, and_true, not_false_eq_true,
      forall_const, agrees_ofText?, agrees_map, ComponentUsage.agrees_toValue]
    constructor
    · rintro ⟨htitle, hid, hcomponents⟩
      exact ⟨htitle, hid, hcomponents⟩
    · rintro ⟨htitle, hid, hcomponents⟩
      exact ⟨htitle, hid, hcomponents⟩

theorem FieldReference.agrees_toValue {reference other : FieldReference} :
    Agrees volatileFields reference.toValue other.toValue ↔ reference = other := by
  refine (agrees_record ?_ ?_).trans ?_
  · rfl
  · exact of_decide_eq_true rfl
  · cases reference
    cases other
    simp +decide only [List.forall₂_cons, List.forall₂_nil_left_iff, and_true, not_false_eq_true,
      forall_const, agrees_text, agrees_ofText?, FieldReference.mk.injEq]

theorem ActionSupport.agrees_toValue {support other : ActionSupport} :
    Agrees volatileFields support.toValue other.toValue ↔ support = other := by
  refine (agrees_record ?_ ?_).trans ?_
  · rfl
  · exact of_decide_eq_true rfl
  · cases support
    cases other
    simp +decide only [List.forall₂_cons, List.forall₂_nil_left_iff, and_true, not_false_eq_true,
      forall_const, agrees_ofText?, ActionSupport.mk.injEq]

theorem OutputPanel.agrees_toValue {panel other : OutputPanel} :
    Agrees volatileFields panel.toValue other.toValue ↔ panel = other := by
  refine (agrees_record ?_ ?_).trans ?_
  · rfl
  · exact of_decide_eq_true rfl
  · cases panel
    cases other
    simp +decide only [List.forall₂_cons, List.forall₂_nil_left_iff, and_true, not_false_eq_true,
      forall_const, agrees_ofText?, OutputPanel.mk.injEq]

theorem ScriptKind.label_inj {kind other : ScriptKind} : kind.label = other.label ↔
    kind = other := by
  cases kind <;> cases other <;> decide

theorem ScriptReference.agrees_toValue {script other : ScriptReference} :
    Agrees volatileFields script.toValue other.toValue ↔ script = other := by
  refine (agrees_record ?_ ?_).trans ?_
  · rfl
  · exact of_decide_eq_true rfl
  · cases script
    cases other
    simp +decide only [List.forall₂_cons, List.forall₂_nil_left_iff, and_true, not_false_eq_true,
      forall_const, agrees_text, ScriptKind.label_inj, ScriptReference.mk.injEq]

theorem Page.agrees_toValue {page other : Page} :
    Agrees volatileFields page.toValue other.toValue ↔ page.SameContent volatileFields other := by
  refine (agrees_record ?_ ?_).trans ?_
  · rfl
  · exact of_decide_eq_true rfl
  · simp +decide only [List.forall₂_cons, List.forall₂_nil_left_iff, and_true, not_false_eq_true,
      forall_const, agrees_int, agrees_bool, agrees_ofText?, agrees_ofTexts, agrees_map,
      ComponentUsage.agrees_toValue, PageBlock.agrees_toValue, FieldReference.agrees_toValue,
      ActionSupport.agrees_toValue, OutputPanel.agrees_toValue, ScriptReference.agrees_toValue,
      List.forall₂_eq_eq_eq, Int.ofNat_inj]
    constructor
    · rintro ⟨h1, h2, h3, h4, h5, h6, h7, h8, h9, h10, h11, h12, h13, h14, h15, h16, h17, h18, h19,
        h20, h21, -⟩
      exact ⟨h1, h2, h3, h4, h5, h6, h7, h8, h9, h10, h11, h12, h13, h14, h15, h16, h17, h18, h19,
        h20, h21⟩
    · rintro ⟨h1, h2, h3, h4, h5, h6, h7, h8, h9, h10, h11, h12, h13, h14, h15, h16, h17, h18, h19,
        h20, h21⟩
      exact ⟨h1, h2, h3, h4, h5, h6, h7, h8, h9, h10, h11, h12, h13, h14, h15, h16, h17, h18, h19,
        h20, h21, False.elim, False.elim, h6.length_eq⟩

def ComponentUsage.HasNoVolatile (usage : ComponentUsage) : Prop :=
  ∀ name ∈ usage.attributes.map (·.1), name ∉ volatileFields

theorem ComponentUsage.SameContent.full {usage other : ComponentUsage}
    (husage : usage.HasNoVolatile)
    (hother : other.HasNoVolatile) (h : usage.SameContent volatileFields other) :
    usage.SameContent [] other := by
  refine ⟨h.space, h.name, fun name _ => ?_⟩
  by_cases hname : name ∈ volatileFields
  · rw [lookup_eq_none_of_notMem fun hmem => husage name hmem hname,
      lookup_eq_none_of_notMem fun hmem => hother name hmem hname]
  · exact h.attributes name hname

theorem ComponentUsage.SameContent.weaken {ignored : List Text} {usage other : ComponentUsage}
    (h : usage.SameContent [] other) : usage.SameContent ignored other :=
  ⟨h.space, h.name, fun name _ => h.attributes name List.not_mem_nil⟩

structure Page.HasNoVolatile (page : Page) : Prop where
  components : ∀ usage ∈ page.components, usage.HasNoVolatile
  blocks : ∀ block ∈ page.blocks, ∀ usage ∈ block.components, usage.HasNoVolatile

theorem Page.sameContent_iff_of_hasNoVolatile {page other : Page} (hpage : page.HasNoVolatile)
    (hother : other.HasNoVolatile) : page.SameContent volatileFields other ↔
    page.SameContent [] other := by
  constructor
  · intro h
    exact { h with
      components := forall₂_imp (fun usage husage other hmem =>
        ComponentUsage.SameContent.full (hpage.components usage husage)
          (hother.components other hmem)) h.components
      blocks := forall₂_imp (fun block hblock other hmem hsame => { hsame with
        components := forall₂_imp (fun usage husage second hsecond =>
          ComponentUsage.SameContent.full
          (hpage.blocks block hblock usage husage) (hother.blocks other hmem second hsecond))
            hsame.components })
        h.blocks }
  · intro h
    exact { h with
      components := h.components.imp fun _ _ => ComponentUsage.SameContent.weaken
      blocks := h.blocks.imp fun _ _ hsame => { hsame with
        components := hsame.components.imp fun _ _ => ComponentUsage.SameContent.weaken } }

namespace Page

theorem digestedText_eq_iff_sameContent {page other : Page} (hpage : page.HasDistinctAttributes)
    (hother : other.HasDistinctAttributes) :
    digestedText page.toValue = digestedText other.toValue ↔
      page.SameContent volatileFields other :=
  (digestedText_eq_iff_agrees (hasDistinctNames_toValue hpage)
    (hasDistinctNames_toValue hother)).trans agrees_toValue

/-- The digested text of a page is that of another one exactly when they hold the same, mode and
warnings aside, but for attributes that have the name of a volatile field. Pages without such
attributes hold the same. -/
theorem digestedText_identifies {page other : Page} (hpage : page.HasDistinctAttributes)
    (hother : other.HasDistinctAttributes) :
    (digestedText page.toValue = digestedText other.toValue ↔
      page.SameContent volatileFields other) ∧
    (page.HasNoVolatile → other.HasNoVolatile →
      (digestedText page.toValue = digestedText other.toValue ↔ page.SameContent [] other)) := by
  have hsame := digestedText_eq_iff_sameContent hpage hother
  exact ⟨hsame, fun hplain hother => hsame.trans (sameContent_iff_of_hasNoVolatile hplain hother)⟩

def noted (mode : Mode) (attributes : Markup.AttributeMap) : Page :=
  { empty mode with components := [⟨['c'], ['n'], attributes⟩] }

theorem hasDistinctAttributes_noted (mode : Mode) {attributes : Markup.AttributeMap}
    (h : (attributes.map (·.1)).Nodup) : (noted mode attributes).HasDistinctAttributes :=
  ⟨List.forall_mem_singleton.mpr h, List.forall_mem_nil _⟩

theorem sameContent_noted {ignored : List Text} {mode mode' : Mode}
    {attributes others : Markup.AttributeMap} :
    (noted mode attributes).SameContent ignored (noted mode' others) ↔
      ∀ name ∉ ignored, attributes.lookup name = others.lookup name := by
  constructor
  · rintro ⟨-, -, -, -, -, _ | ⟨⟨-, -, h⟩, -⟩⟩
    exact h
  · exact fun h => ⟨rfl, rfl, rfl, rfl, rfl, .cons ⟨rfl, rfl, h⟩ .nil, rfl, .nil, rfl, rfl, rfl,
      rfl, rfl, rfl, rfl, rfl, rfl, rfl, rfl, rfl, rfl⟩

/-- Neither the order of attributes nor the mode makes a difference; the value of an attribute
does. -/
theorem digestedText_noted :
    digestedText (noted .tree [(['a'], ['x']), (['b'], ['y'])]).toValue =
        digestedText (noted .fallback [(['b'], ['y']), (['a'], ['x'])]).toValue ∧
      digestedText (noted .tree [(['a'], ['x'])]).toValue ≠
        digestedText (noted .tree [(['a'], ['y'])]).toValue := by
  constructor
  · refine (digestedText_identifies (hasDistinctAttributes_noted _ (by decide))
      (hasDistinctAttributes_noted _ (by decide))).1.mpr (sameContent_noted.mpr fun name _ => ?_)
    exact lookup_eq_of_perm (by decide) (.swap _ _ _) name
  · intro heq
    have hplain : ∀ c, (noted .tree [(['a'], [c])]).HasNoVolatile := fun _ =>
      ⟨List.forall_mem_singleton.mpr (List.forall_mem_singleton.mpr (of_decide_eq_true rfl)),
        List.forall_mem_nil _⟩
    have hsame := ((digestedText_identifies (hasDistinctAttributes_noted _ (by decide))
      (hasDistinctAttributes_noted _ (by decide))).2 (hplain 'x') (hplain 'y')).mp heq
    exact absurd (sameContent_noted.mp hsame ['a'] (by decide)) (by decide)

/-- An attribute that has the name of a volatile field is not in the digest. -/
theorem digestedText_noted_warnings :
    digestedText (noted .tree [("warnings".toList, ['x'])]).toValue =
      digestedText (noted .tree []).toValue ∧
      ¬(noted .tree [("warnings".toList, ['x'])]).SameContent [] (noted .tree []) := by
  constructor
  · refine (digestedText_eq_iff_sameContent (hasDistinctAttributes_noted _ (by decide))
      (hasDistinctAttributes_noted _ (by decide))).mpr (sameContent_noted.mpr fun name hname => ?_)
    refine lookup_eq_none_of_notMem fun hmem => hname ?_
    rw [List.mem_singleton.mp hmem]
    decide
  · intro hsame
    exact absurd (sameContent_noted.mp hsame "warnings".toList List.not_mem_nil) (by decide)

end Page
end Visualforce
