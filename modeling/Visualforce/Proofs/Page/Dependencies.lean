import Visualforce.Proofs.Expression.Fields
import Visualforce.Proofs.Page.Chain
import Visualforce.Proofs.Page.Representation

/-! # Entities and fields of every page

While a page is read, its references stay unresolved and every expression in it is trimmed. The
final steps then resolve the references, and what they name together with the chains of property
paths makes up the entities and fields of the page.
-/
namespace Visualforce.Page
open Markup Expression

variable {config : Config} {text : Text} {page : Page}

/-- What holds of the expressions of a page before its dependencies are resolved. -/
structure IsCollected (page : Page) : Prop where
  references : ∀ reference ∈ page.fieldReferences, ∃ content context,
    reference = .unresolved content context ∧ Text.IsTrimmed content ∧
      classify content = .simpleReference
  expressions : ∀ content ∈ page.expressions, Text.IsTrimmed content
  entities : page.entities = []
  entityFields : page.entityFields = []

theorem empty_isCollected (mode : Mode) : IsCollected (Page.empty mode) := by
  constructor <;> simp [Page.empty]

theorem find_trimmed (text : Text) : ∀ content ∈ find text, Text.IsTrimmed content := by
  obtain ⟨fields, -, hfind⟩ := exists_carries_find text
  intro content hcontent
  rw [hfind] at hcontent
  obtain ⟨field, -, rfl⟩ := List.mem_map.mp hcontent
  exact field.trimmed

theorem IsCollected.collect (h : IsCollected page) (text context : Text) :
    IsCollected (collect page text context) := by
  have htrimmed := find_trimmed text
  constructor
  · simp only [Page.collect, Collection.scan_eq]
    refine List.forall_mem_append.mpr ⟨h.references, fun reference hmem => ?_⟩
    obtain ⟨content, hcontent, rfl⟩ := List.mem_map.mp hmem
    obtain ⟨hfound, hsimple⟩ := List.mem_filter.mp hcontent
    exact ⟨content, context, rfl, htrimmed content hfound, by simpa using hsimple⟩
  · simp only [Page.collect, Collection.scan_eq]
    refine List.forall_mem_append.mpr ⟨h.expressions, fun content hmem => ?_⟩
    exact htrimmed content (List.mem_filter.mp hmem).1
  · exact h.entities
  · exact h.entityFields

theorem IsCollected.visitAttributes (h : IsCollected page) (head : Head) :
    IsCollected (visitAttributes head page) := by
  rw [Page.visitAttributes]
  induction head.attributes generalizing page with
  | nil => exact h
  | cons attr attributes ih =>
    have hcollected := h.collect attr.value (head.tag ++ '.' :: attr.name)
    obtain ⟨bs, cs, hbind⟩ :=
      bind_frame head attr (Page.collect page attr.value (head.tag ++ '.' :: attr.name))
    rw [List.foldl_cons, visitAttribute, hbind]
    exact ih ⟨hcollected.references, hcollected.expressions, hcollected.entities,
      hcollected.entityFields⟩

theorem IsCollected.visitHead {head : Head} {children : List Node} {walk walk' : Walk}
    (h : IsCollected walk.page) (hvisit : visitHead config head children walk = .ok walk') :
    IsCollected walk'.page := by
  rw [visitHead_eq, map_eq_ok] at hvisit
  obtain ⟨page, htag, rfl⟩ := hvisit
  have hattrs := h.visitAttributes head
  have hadd : IsCollected (addUsage config head (Page.visitAttributes head walk.page)) := by
    rw [addUsage]
    cases usage? head <;>
      exact ⟨hattrs.references, hattrs.expressions, hattrs.entities, hattrs.entityFields⟩
  rcases visitTag_cases htag with ⟨-, rfl⟩ | ⟨-, rfl⟩ | ⟨-, found, -, rfl⟩ | ⟨-, -, -, rfl⟩ <;>
    exact ⟨hadd.references, hadd.expressions, hadd.entities, hadd.entityFields⟩

theorem ofTree_isCollected {root : Element} (h : ofTree config root = .ok page) :
    IsCollected page := by
  obtain ⟨walk, hwalk, rfl⟩ := ofTree_eq_ok h
  have hroot : IsCollected (ofRoot root.head) := by
    constructor <;> simp [ofRoot, Page.empty]
  have hpage := visitAll_preserves (P := IsCollected) (fun _ _ _ hp => hp.collect _ _)
    (fun _ _ _ _ hhead hp => hp.visitHead hhead) [root.head.tag] root.children _ walk hwalk
    (hroot.visitAttributes root.head)
  exact ⟨hpage.references, hpage.expressions, hpage.entities, hpage.entityFields⟩

theorem Step.run_isCollected (config : Config) (text : Text) (h : IsCollected page) (step : Step) :
    IsCollected (step.run config text page).1 := by
  cases step with
  | expressions => exact h.collect text documentContext
  | outputPanels =>
    obtain ⟨panels, error, hrun⟩ :=
      readPanels_frame config (panelOpening.hits (visible config text)) page
    rw [Step.run, hrun]
    exact ⟨h.references, h.expressions, h.entities, h.entityFields⟩
  | settings | components | bindings | blocks | actionSupports =>
    exact ⟨h.references, h.expressions, h.entities, h.entityFields⟩

theorem IsCollected.withWarnings (h : IsCollected page) (warnings : List Text) :
    IsCollected { page with warnings := warnings } :=
  ⟨h.references, h.expressions, h.entities, h.entityFields⟩

theorem runSteps_isCollected (text : Text) (h : IsCollected page) (steps : List Step) :
    IsCollected (runSteps config text steps page) := by
  refine runSteps_preserves (P := IsCollected) (fun step page hp => ?_) steps h
  have hrun := Step.run_isCollected config text hp step
  rw [runStep]
  split
  · rename_i after hafter
    rwa [hafter] at hrun
  · rename_i after error hafter
    rw [hafter] at hrun
    exact hrun.withWarnings _

theorem readWith_isCollected (config : Config) (text : Text) :
    IsCollected (readWith config text) := by
  by_cases hsize : config.isOversize text = true
  · rw [readWith_oversize hsize]
    exact runSteps_isCollected text (empty_isCollected .lightweight) Step.light
  · rw [Bool.not_eq_true] at hsize
    cases htree : readTree config text with
    | ok page =>
      rw [readWith_tree hsize htree]
      obtain ⟨root, -, hroot⟩ := readTree_eq_ok htree
      exact ofTree_isCollected hroot
    | error error =>
      rw [readWith_fallback hsize htree]
      exact (runSteps_isCollected text (empty_isCollected .fallback) Step.all).withWarnings _

/-- The trimmed name of a controller, when it is there and has no dot. -/
structure IsControllerEntity (controller : Option Text) (name : Text) : Prop where
  name_eq : name = Text.trim (controller.getD [])
  name_ne : name ≠ []
  dotless : '.' ∉ name

theorem controllerEntity?_eq_some {controller : Option Text} {name : Text} :
    controllerEntity? controller = some name ↔ IsControllerEntity controller name := by
  rw [controllerEntity?]
  cases htrim : Text.trim (controller.getD []) with
  | nil =>
    constructor
    · rintro ⟨⟩
    · rintro ⟨rfl, hne, -⟩
      exact absurd htrim hne
  | cons c rest =>
    simp only [nonEmpty?]
    split_ifs with hdot
    · constructor
      · rintro ⟨⟩
      · rintro ⟨rfl, -, hdotless⟩
        rw [htrim] at hdotless
        exact absurd (by simpa using hdot) hdotless
    · constructor
      · rintro ⟨⟩
        exact ⟨htrim.symm, List.cons_ne_nil c rest, by simpa using hdot⟩
      · rintro ⟨rfl, -, -⟩
        rw [htrim]

/-- What the expression of a reference names: with a dot what stands on both sides of it, and else a
field of the controller's entity. -/
inductive NamesField (controller : Option Text) (expression : Text) : FieldPath → Prop where
  | dotted {field : FieldPath} (haround : AroundDot expression field.entity field.path)
      (hentity : field.entity ≠ []) (hpath : field.path ≠ [])
        (hlocal : isGlobal field.entity = false) :
      NamesField controller expression field
  | plain {entity : Text} (hdotless : '.' ∉ expression)
      (hentity : IsControllerEntity controller entity)
      (hplain : IsPlainIdentifier expression) : NamesField controller expression
        ⟨entity, expression⟩

theorem IsPlainIdentifier.dotless {name : Text} (h : IsPlainIdentifier name) : '.' ∉ name := by
  obtain ⟨c, rest, rfl, hc, hrest⟩ := h
  rintro (_ | ⟨_, hmem⟩)
  · cases hc
  · exact absurd (hrest _ hmem) (by decide)

variable {controller : Option Text} {expression : Text} {field : FieldPath}

/-- A simple reference is never taken for a chain. -/
theorem splitReference?_of_simple (hsimple : classify expression = .simpleReference) :
    splitReference? expression = splitAtDot? expression := by
  rw [splitReference?, splitPath?_of_simple hsimple, Option.none_or]

theorem fieldOf?_eq_some (htrimmed : Text.IsTrimmed expression)
    (hsimple : classify expression = .simpleReference) :
    (∃ named, fieldOf? (controllerEntity? controller) expression = some (field, named)) ↔
      NamesField controller expression field := by
  rw [fieldOf?.eq_def, splitReference?_of_simple hsimple]
  cases hsplit : splitAtDot? expression with
  | some found =>
    have hfound := (splitAtDot?_eq_some htrimmed).mp hsplit
    simp only [Option.some.injEq, Prod.mk.injEq, exists_and_left, exists_eq', and_true]
    constructor
    · rintro rfl
      exact .dotted hfound.1 hfound.2.1 hfound.2.2.1 hfound.2.2.2
    · rintro (⟨haround, hentity, hpath, hlocal⟩ | ⟨hdotless, -, -⟩)
      · have hsame := (splitAtDot?_eq_some htrimmed).mpr ⟨haround, hentity, hpath, hlocal⟩
        rw [hsplit, Option.some_inj] at hsame
        exact hsame
      · obtain ⟨first, last, htext, -⟩ := hfound.1
        exact absurd (by simp [htext]) hdotless
  | none =>
    simp only
    constructor
    · rintro ⟨named, hnamed⟩
      cases hentity : controllerEntity? controller with
      | none => rw [hentity] at hnamed; cases hnamed
      | some entity =>
        rw [hentity] at hnamed
        simp only at hnamed
        split_ifs at hnamed with hplain
        rw [startsWith_plainIdentifier htrimmed] at hplain
        cases hnamed
        exact .plain hplain.dotless (controllerEntity?_eq_some.mp hentity) hplain
    · rintro (⟨haround, hentity, hpath, hlocal⟩ | ⟨-, hentity, hplain⟩)
      · have hsome := (splitAtDot?_eq_some htrimmed).mpr ⟨haround, hentity, hpath, hlocal⟩
        rw [hsplit] at hsome
        cases hsome
      · rw [controllerEntity?_eq_some.mpr hentity]
        simp only
        rw [if_pos ((startsWith_plainIdentifier htrimmed).mpr hplain)]
        exact ⟨false, rfl⟩

theorem fieldOf?_unnamed (h : fieldOf? controller expression = some (field, false)) :
    controller = some field.entity := by
  rw [fieldOf?.eq_def] at h
  split at h
  · cases h
  · split at h
    · split_ifs at h
      cases h
      rfl
    · cases h

theorem FieldPath.takeWhile_text (h : '.' ∉ field.entity) :
    field.text.takeWhile (· != '.') = field.entity := by
  have hentity : ∀ c ∈ field.entity, (c != '.') = true := fun c hc => by
    simpa using fun hdot : c = '.' => h (hdot ▸ hc)
  rw [FieldPath.text, List.takeWhile_append_of_pos hentity]
  simp

theorem NamesField.dotless (h : NamesField controller expression field) : '.' ∉ field.entity := by
  cases h with
  | dotted haround _ _ _ =>
    obtain ⟨first, last, -, hfirst, hentity, -⟩ := haround
    rw [hentity]
    exact fun hmem => hfirst (Text.mem_of_mem_trim hmem)
  | plain _ hentity _ => exact hentity.dotless

/-- What holds of a page after its dependencies were resolved. -/
structure IsResolved (page : Page) : Prop where
  together : ∀ reference ∈ page.fieldReferences, reference.entity.isSome ↔ reference.field.isSome
  references : ∀ reference ∈ page.fieldReferences, ∀ entity path,
    (reference.entity = some entity ∧ reference.field = some path) ↔
      NamesField page.controller reference.expression ⟨entity, path⟩
  fields : ∀ name, name ∈ page.entityFields ↔
    (∃ reference ∈ page.fieldReferences, ∃ entity path, reference.entity = some entity ∧
      reference.field = some path ∧ name = entity ++ '.' :: path) ∨
    (∃ content ∈ page.expressions, classify content = .propertyPath ∧
      ∃ entity path, BeginsWithChain content entity path ∧ isGlobal entity = false ∧
        name = entity ++ dotted path)
  entities : ∀ name, name ∈ page.entities ↔ IsControllerEntity page.controller name ∨
    ∃ field ∈ page.entityFields, name = field.takeWhile (· != '.')
  first : ∀ name, IsControllerEntity page.controller name → page.entities.head? = some name
  fieldsNodup : page.entityFields.Nodup
  entitiesNodup : page.entities.Nodup

theorem mem_resolve_fields {expressions paths : List Text} {name : Text} :
    name ∈ (resolve controller expressions paths).fields ↔
      (∃ content ∈ expressions, ∃ field named,
        fieldOf? (controllerEntity? controller) content = some (field, named) ∧ name = field.text) ∨
      ∃ path ∈ paths, ∃ field, splitPath? path = some field ∧ name = field.text := by
  simp only [resolve, mem_dedupe, List.mem_append, List.mem_map, List.mem_filterMap, Prod.exists]
  constructor
  · rintro (⟨field, named, ⟨content, hcontent, hfield⟩, rfl⟩ | ⟨field, ⟨path, hpath, hfield⟩, rfl⟩)
    · exact .inl ⟨content, hcontent, field, named, hfield, rfl⟩
    · exact .inr ⟨path, hpath, field, hfield, rfl⟩
  · rintro (⟨content, hcontent, field, named, hfield, rfl⟩ | ⟨path, hpath, field, hfield, rfl⟩)
    · exact .inl ⟨field, named, ⟨content, hcontent, hfield⟩, rfl⟩
    · exact .inr ⟨field, ⟨path, hpath, hfield⟩, rfl⟩

theorem mem_resolve_entities {expressions paths : List Text} {name : Text}
    (hexpressions : ∀ content ∈ expressions, ∀ field named,
      fieldOf? (controllerEntity? controller) content = some (field, named) → '.' ∉ field.entity)
    (hpaths : ∀ path ∈ paths, ∀ field, splitPath? path = some field → '.' ∉ field.entity) :
    name ∈ (resolve controller expressions paths).entities ↔
      controllerEntity? controller = some name ∨
      ∃ field ∈ (resolve controller expressions paths).fields, name =
        field.takeWhile (· != '.') := by
  have hentities : name ∈ (resolve controller expressions paths).entities ↔
      controllerEntity? controller = some name ∨
      (∃ content ∈ expressions, ∃ field,
        fieldOf? (controllerEntity? controller) content = some (field, true) ∧
        name = field.entity) ∨
      ∃ path ∈ paths, ∃ field, splitPath? path = some field ∧ name = field.entity := by
    simp only [resolve, mem_dedupe, List.mem_append, Option.mem_toList, List.mem_map,
      List.mem_filterMap, List.mem_filter, Prod.exists, or_assoc]
    refine or_congr Iff.rfl (or_congr ?_ ?_)
    · constructor
      · rintro ⟨field, named, ⟨⟨content, hcontent, hfield⟩, hnamed⟩, rfl⟩
        exact ⟨content, hcontent, field, hnamed ▸ hfield, rfl⟩
      · rintro ⟨content, hcontent, field, hfield, rfl⟩
        exact ⟨field, true, ⟨⟨content, hcontent, hfield⟩, rfl⟩, rfl⟩
    · constructor
      · rintro ⟨field, ⟨path, hpath, hfield⟩, rfl⟩
        exact ⟨path, hpath, field, hfield, rfl⟩
      · rintro ⟨path, hpath, field, hfield, rfl⟩
        exact ⟨field, ⟨path, hpath, hfield⟩, rfl⟩
  rw [hentities]
  constructor
  · rintro (hcontroller | ⟨content, hcontent, field, hfield, rfl⟩ | ⟨path, hpath, field, hfield,
      rfl⟩)
    · exact .inl hcontroller
    · refine .inr ⟨field.text,
        mem_resolve_fields.mpr (.inl ⟨content, hcontent, field, true, hfield, rfl⟩), ?_⟩
      rw [FieldPath.takeWhile_text (hexpressions content hcontent field true hfield)]
    · refine .inr ⟨field.text, mem_resolve_fields.mpr (.inr ⟨path, hpath, field, hfield, rfl⟩), ?_⟩
      rw [FieldPath.takeWhile_text (hpaths path hpath field hfield)]
  · rintro (hcontroller | ⟨shown, hshown, rfl⟩)
    · exact .inl hcontroller
    · obtain ⟨content, hcontent, field, named, hfield, rfl⟩ | ⟨path, hpath, field, hfield, rfl⟩ :=
        mem_resolve_fields.mp hshown
      · rw [FieldPath.takeWhile_text (hexpressions content hcontent field named hfield)]
        cases named with
        | true => exact .inr (.inl ⟨content, hcontent, field, hfield, rfl⟩)
        | false => exact .inl (fieldOf?_unnamed hfield)
      · rw [FieldPath.takeWhile_text (hpaths path hpath field hfield)]
        exact .inr (.inr ⟨path, hpath, field, hfield, rfl⟩)

theorem backfill_expression (reference : FieldReference) :
    (backfill controller reference).expression = reference.expression := by
  rw [backfill]
  split <;> rfl

/-- Filling in the entity and field of a reference that has none sets them to what it names. -/
theorem backfill_unresolved {content context : Text} (htrimmed : Text.IsTrimmed content)
    (hsimple : classify content = .simpleReference) (entity path : Text) :
    ((backfill (controllerEntity? controller) (.unresolved content context)).entity = some entity ∧
      (backfill (controllerEntity? controller) (.unresolved content context)).field = some path) ↔
        NamesField controller content ⟨entity, path⟩ := by
  rw [← fieldOf?_eq_some htrimmed hsimple, backfill]
  simp only [FieldReference.unresolved]
  cases fieldOf? (controllerEntity? controller) content with
  | none => simp
  | some found =>
    obtain ⟨⟨entity', path'⟩, named⟩ := found
    simp

theorem backfill_together {content context : Text} :
    (backfill controller (.unresolved content context)).entity.isSome ↔
      (backfill controller (.unresolved content context)).field.isSome := by
  rw [backfill]
  split
  · rfl
  · rfl

theorem IsCollected.resolved (h : IsCollected page) : IsResolved (addDependencies page) := by
  have hexpression : ∀ content ∈ page.fieldReferences.map (·.expression),
      Text.IsTrimmed content ∧ classify content = .simpleReference := by
    intro content hmem
    obtain ⟨reference, hreference, rfl⟩ := List.mem_map.mp hmem
    obtain ⟨content, context, rfl, htrimmed, hsimple⟩ := h.references reference hreference
    exact ⟨htrimmed, hsimple⟩
  have hpath : ∀ path ∈ page.expressions.filter fun e => classify e == .propertyPath,
      Text.IsTrimmed path := fun path hmem => h.expressions path (List.mem_filter.mp hmem).1
  have hfields : ∀ name, name ∈ (addDependencies page).entityFields ↔
      name ∈ (resolve page.controller (page.fieldReferences.map (·.expression))
        (page.expressions.filter fun e => classify e == .propertyPath)).fields := by
    simp [addDependencies, h.entityFields]
  have hentities : ∀ name, name ∈ (addDependencies page).entities ↔
      name ∈ (resolve page.controller (page.fieldReferences.map (·.expression))
        (page.expressions.filter fun e => classify e == .propertyPath)).entities := by
    simp [addDependencies, h.entities]
  constructor
  · intro reference hmem
    obtain ⟨before, hbefore, rfl⟩ := List.mem_map.mp hmem
    obtain ⟨content, context, rfl, -⟩ := h.references before hbefore
    exact backfill_together
  · intro reference hmem entity path
    obtain ⟨before, hbefore, rfl⟩ := List.mem_map.mp hmem
    obtain ⟨content, context, rfl, htrimmed, hsimple⟩ := h.references before hbefore
    rw [backfill_expression]
    exact backfill_unresolved htrimmed hsimple entity path
  · intro name
    rw [hfields, mem_resolve_fields]
    refine or_congr ⟨?_, ?_⟩ ⟨?_, ?_⟩
    · rintro ⟨content, hmem, field, named, hfield, rfl⟩
      obtain ⟨reference, hreference, rfl⟩ := List.mem_map.mp hmem
      obtain ⟨content, context, rfl, htrimmed, hsimple⟩ := h.references reference hreference
      have hnames := (fieldOf?_eq_some htrimmed hsimple).mp ⟨named, hfield⟩
      obtain ⟨hentity, hpath⟩ :=
        (backfill_unresolved htrimmed hsimple field.entity field.path).mpr hnames
      exact ⟨_, List.mem_map_of_mem hreference, field.entity, field.path, hentity, hpath, rfl⟩
    · rintro ⟨reference, hmem, entity, path, hentity, hpath, rfl⟩
      obtain ⟨before, hbefore, rfl⟩ := List.mem_map.mp hmem
      obtain ⟨content, context, rfl, htrimmed, hsimple⟩ := h.references before hbefore
      have hnames := (backfill_unresolved htrimmed hsimple entity path).mp ⟨hentity, hpath⟩
      obtain ⟨named, hfield⟩ := (fieldOf?_eq_some htrimmed hsimple).mpr hnames
      exact ⟨content, List.mem_map_of_mem hbefore, ⟨entity, path⟩, named, hfield, rfl⟩
    · rintro ⟨content, hmem, field, hfield, rfl⟩
      obtain ⟨path, hchain, hlocal, htext⟩ := (splitPath?_eq_some (hpath content hmem)).mp hfield
      obtain ⟨hcontent, hkind⟩ := List.mem_filter.mp hmem
      exact ⟨content, hcontent, by simpa using hkind, field.entity, path, hchain, hlocal, htext⟩
    · rintro ⟨content, hcontent, hkind, entity, path, hchain, hlocal, rfl⟩
      have hmem : content ∈ page.expressions.filter fun e => classify e == .propertyPath :=
        List.mem_filter.mpr ⟨hcontent, by simpa using hkind⟩
      have htext : (⟨entity, (dotted path).drop 1⟩ : FieldPath).text =
          entity ++ dotted path := by
        rw [FieldPath.text, drop_dotted path hchain.path_ne]
      exact ⟨content, hmem, _, (splitPath?_eq_some (hpath content hmem)).mpr ⟨path, hchain, hlocal,
        htext⟩, htext.symm⟩
  · intro name
    rw [hentities, mem_resolve_entities, controllerEntity?_eq_some]
    · simp only [hfields]
      rfl
    · intro content hmem field named hfield
      obtain ⟨htrimmed, hsimple⟩ := hexpression content hmem
      exact ((fieldOf?_eq_some htrimmed hsimple).mp ⟨named, hfield⟩).dotless
    · intro path hmem field hfield
      obtain ⟨names, hchain, -⟩ := (splitPath?_eq_some (hpath path hmem)).mp hfield
      exact dot_not_mem_of_isIdentifier hchain.isIdentifier
  · intro name hname
    have hcontroller : controllerEntity? page.controller = some name :=
      controllerEntity?_eq_some.mpr hname
    simp [addDependencies, h.entities, resolve, hcontroller, dedupe_cons]
  · exact nodup_dedupe _
  · exact nodup_dedupe _

/-- For every source, configuration and metadata: entity and field of each reference are set
together and to what the reference names, the fields are those of the references and the chains that
property paths begin with, and the entities are the controller's, which comes first, and those of
the fields. -/
theorem ofSource_isResolved (config : Config) (source : Source) (metadata : Option Text) :
    IsResolved (ofSource config source metadata) := by
  have hread := readWith_isCollected config source.toText
  have hfinish : IsResolved (finish config source.toText (readWith config source.toText)) := by
    obtain ⟨forms, remoting, resources, scripts, fragments, warnings, hraw⟩ :=
      readRawOrWarn_frame config source.toText (readWith config source.toText)
    rw [finish, hraw]
    refine IsCollected.resolved ⟨hread.references, fun content hmem => ?_, ?_, ?_⟩
    · exact hread.expressions content (mem_dedupe.mp ((rankAll_perm _).mem_iff.mp hmem))
    · simp [dedupeSets, rankExpressions, hread.entities]
    · simp [dedupeSets, rankExpressions, hread.entityFields]
  rw [ofSource, parse]
  split
  · rw [applyMetadata]
    split <;> exact { hfinish with }
  · exact hfinish

end Visualforce.Page
