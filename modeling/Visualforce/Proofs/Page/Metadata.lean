import Visualforce.Proofs.Page.Degradation

/-! # Metadata of a page

Metadata that can be read sets the version and the label of a page where the page has none, to the
text of the child elements that declare them; other metadata leaves one warning. Nothing else
depends on metadata.
-/
namespace Visualforce.Page

variable {config : Config} {source : Source} {document : Text} {root : Xml.Element} {base : Text}

/-- The metadata is a document with this root, and the root is that of a page or a component. -/
structure IsMetadata (document : Text) (root : Xml.Element) : Prop where
  read : Xml.read (Text.trim document) = .ok root
  root : root.name.base = "ApexPage".toList ∨ root.name.base = "ApexComponent".toList

def LacksElement (name : Xml.Name) (nodes : List Xml.Node) : Prop :=
  ∀ attributes content, Xml.Node.element name attributes content ∉ nodes

def IsFirstElement (name : Xml.Name) (nodes content : List Xml.Node) : Prop :=
  ∃ before attributes after, nodes = before ++ .element name attributes content :: after ∧
    LacksElement name before

/-- A child in the metadata namespace counts before one without a namespace. -/
def IsSettingChild (root : Xml.Element) (base : Text) (content : List Xml.Node) : Prop :=
  IsFirstElement ⟨some metadataSpace, base⟩ root.children content ∨
    LacksElement ⟨some metadataSpace, base⟩ root.children ∧
      IsFirstElement ⟨none, base⟩ root.children content

/-- The value of a setting is the trimmed text that its child begins with, unless that is empty. -/
def Declares (root : Xml.Element) (base value : Text) : Prop :=
  value ≠ [] ∧ ∃ written after, IsSettingChild root base (.text written :: after) ∧
    value = Text.trim written

section Children

variable {name : Xml.Name} {node : Xml.Node} {nodes content : List Xml.Node}

theorem lacksElement_cons :
    LacksElement name (node :: nodes) ↔ LacksElement name [node] ∧ LacksElement name nodes := by
  simp only [LacksElement, List.mem_cons, List.not_mem_nil, or_false, not_or, forall_and]

theorem isFirstElement_cons_of_lacks (h : LacksElement name [node]) :
    IsFirstElement name (node :: nodes) content ↔ IsFirstElement name nodes content := by
  constructor
  · rintro ⟨before, attributes, after, heq, hbefore⟩
    cases before with
    | nil =>
      obtain ⟨rfl, -⟩ := List.cons_eq_cons.mp heq
      exact absurd List.mem_cons_self (h attributes content)
    | cons first before =>
      obtain ⟨-, heq⟩ := List.cons_eq_cons.mp heq
      exact ⟨before, attributes, after, heq, (lacksElement_cons.mp hbefore).2⟩
  · rintro ⟨before, attributes, after, rfl, hbefore⟩
    exact ⟨node :: before, attributes, after, rfl, lacksElement_cons.mpr ⟨h, hbefore⟩⟩

theorem isFirstElement_cons_self {attributes : List (Xml.Name × Text)} {children : List Xml.Node} :
    IsFirstElement name (.element name attributes children :: nodes) content ↔
      children = content := by
  constructor
  · rintro ⟨before, attributes', after, heq, hbefore⟩
    cases before with
    | nil => exact (Xml.Node.element.inj (List.cons_eq_cons.mp heq).1).2.2
    | cons first before =>
      obtain ⟨rfl, -⟩ := List.cons_eq_cons.mp heq
      exact absurd List.mem_cons_self (hbefore attributes children)
  · rintro rfl
    exact ⟨[], attributes, nodes, rfl, fun _ _ => List.not_mem_nil⟩

theorem childNamed?_spec (name : Xml.Name) (nodes : List Xml.Node) :
    (childNamed? name nodes = none ↔ LacksElement name nodes) ∧
      ∀ content, childNamed? name nodes = some content ↔ IsFirstElement name nodes content := by
  have hskip : ∀ {node : Xml.Node} {nodes : List Xml.Node}, LacksElement name [node] →
      childNamed? name (node :: nodes) = childNamed? name nodes →
      ((childNamed? name nodes = none ↔ LacksElement name nodes) ∧
        ∀ content, childNamed? name nodes = some content ↔ IsFirstElement name nodes content) →
      (childNamed? name (node :: nodes) = none ↔ LacksElement name (node :: nodes)) ∧
        ∀ content, childNamed? name (node :: nodes) = some content ↔
          IsFirstElement name (node :: nodes) content := by
    rintro node nodes hlacks hsame ⟨hnone, hsome⟩
    rw [hsame]
    exact ⟨hnone.trans ⟨fun h => lacksElement_cons.mpr ⟨hlacks, h⟩,
      fun h => (lacksElement_cons.mp h).2⟩, fun content =>
      (hsome content).trans (isFirstElement_cons_of_lacks hlacks).symm⟩
  induction nodes with
  | nil =>
    exact ⟨⟨fun _ _ _ => List.not_mem_nil, fun _ => rfl⟩, fun content => by
      simp [childNamed?, IsFirstElement]⟩
  | cons node nodes ih =>
    cases node with
    | text written => exact hskip (by simp [LacksElement]) rfl ih
    | element found attributes children =>
      by_cases hfound : found = name
      · subst hfound
        have hself : childNamed? found (.element found attributes children :: nodes) =
          some children := by
          simp [childNamed?]
        rw [hself]
        refine ⟨iff_of_false nofun fun h => h attributes children List.mem_cons_self, fun content =>
          ?_⟩
        rw [isFirstElement_cons_self, Option.some_inj]
      · refine hskip (fun attributes content hmem => ?_) (by simp [childNamed?, hfound]) ih
        obtain ⟨rfl, -⟩ := Xml.Node.element.inj (List.mem_singleton.mp hmem)
        exact hfound rfl

end Children

theorem leadingText?_eq_some {content : List Xml.Node} {value : Text} :
    leadingText? content = some value ↔
      value ≠ [] ∧ ∃ written after, content = .text written :: after ∧
        value = Text.trim written := by
  cases content with
  | nil => simp [leadingText?]
  | cons node after =>
    cases node with
    | element found attributes children => simp [leadingText?]
    | text written =>
      cases htrim : Text.trim written with
      | nil => simp [leadingText?, htrim, nonEmpty?]
      | cons c rest =>
        have hread : leadingText? (.text written :: after) = some (c :: rest) := by
          simp [leadingText?, htrim, nonEmpty?]
        rw [hread, Option.some_inj]
        constructor
        · rintro rfl
          exact ⟨List.cons_ne_nil c rest, written, after, rfl, htrim.symm⟩
        · rintro ⟨-, written', after', heq, rfl⟩
          obtain ⟨rfl⟩ := Xml.Node.text.inj (List.cons_eq_cons.mp heq).1
          exact htrim.symm

theorem childText?_eq_some {name : String} {value : Text} :
    childText? root name = some value ↔ Declares root name.toList value := by
  obtain ⟨hnone, hsome⟩ := childNamed?_spec ⟨some metadataSpace, name.toList⟩ root.children
  obtain ⟨-, hplain⟩ := childNamed?_spec ⟨none, name.toList⟩ root.children
  have hchild : ∀ content, (childNamed? ⟨some metadataSpace, name.toList⟩ root.children).or
      (childNamed? ⟨none, name.toList⟩ root.children) = some content ↔
        IsSettingChild root name.toList content := by
    intro content
    rw [Option.or_eq_some_iff, hsome, hnone, hplain]
    rfl
  rw [childText?, Option.bind_eq_some_iff]
  constructor
  · rintro ⟨content, hcontent, htext⟩
    obtain ⟨hne, written, after, rfl, hvalue⟩ := leadingText?_eq_some.mp htext
    exact ⟨hne, written, after, (hchild _).mp hcontent, hvalue⟩
  · rintro ⟨hne, written, after, hcontent, hvalue⟩
    exact ⟨_, (hchild _).mpr hcontent, leadingText?_eq_some.mpr ⟨hne, written, after, rfl, hvalue⟩⟩

theorem isMetadata_iff :
    IsMetadata document root ↔ Xml.read (Text.trim document) = .ok root ∧
      metadataRoots.contains root.name.base := by
  have hroots : metadataRoots.contains root.name.base ↔
      root.name.base = "ApexPage".toList ∨ root.name.base = "ApexComponent".toList := by
    rw [List.contains_iff_mem, metadataRoots, List.mem_cons, List.mem_singleton]
  rw [hroots]
  exact ⟨fun h => ⟨h.read, h.root⟩, fun h => ⟨h.1, h.2⟩⟩

theorem IsMetadata.exists_read (h : IsMetadata document root) : ∃ metadata, Metadata.read document =
    .ok metadata ∧
    metadata.apiVersion = childText? root "apiVersion" ∧ metadata.label =
      childText? root "label" := by
  obtain ⟨hread, hroot⟩ := isMetadata_iff.mp h
  rw [Metadata.read]
  simp only [hread, hroot, Bool.not_true, Bool.false_eq_true, if_false]
  exact ⟨_, rfl, rfl, rfl⟩

theorem exists_error_of_not_isMetadata (h : ∀ root, ¬ IsMetadata document root) :
    ∃ error, Metadata.read document = .error error := by
  rw [Metadata.read]
  cases hread : Xml.read (Text.trim document) with
  | error fault => exact ⟨_, rfl⟩
  | ok root =>
    have hroot : metadataRoots.contains root.name.base = false := by
      rw [← Bool.not_eq_true]
      exact fun hroot => h root (isMetadata_iff.mpr ⟨hread, hroot⟩)
    simp only [hroot, Bool.not_false, if_true]
    exact ⟨_, rfl⟩

/-- A setting that the page has stays; a gap becomes what is declared, if anything is. -/
structure FillsGap (own : Option Text) (declares : Text → Prop) (filled : Option Text) : Prop where
  kept : ∀ value, own = some value → value ≠ [] → filled = some value
  gap : (∀ value, own = some value → value = []) → ∀ value, filled = some value ↔ declares value

theorem prefer_of_ne {value : Text} (h : value ≠ []) (other : Option Text) :
    prefer (some value) other = some value := by
  obtain ⟨c, rest, rfl⟩ := List.exists_cons_of_ne_nil h
  rfl

theorem prefer_of_gap {own : Option Text} (h : ∀ value, own = some value → value = [])
    (other : Option Text) :
    prefer own other = other := by
  cases own with
  | none => rfl
  | some value =>
    obtain rfl := h value rfl
    rfl

theorem fillsGap_prefer (own : Option Text) (name : String) :
    FillsGap own (Declares root name.toList) (prefer own (childText? root name)) where
  kept value hown hne := by rw [hown, prefer_of_ne hne]
  gap hgap value := by rw [prefer_of_gap hgap, childText?_eq_some]

/-- What has been filled is not filled again. -/
theorem prefer_prefer (own other : Option Text) : prefer (prefer own other) other =
    prefer own other := by
  by_cases hgap : ∀ value, own = some value → value = []
  · rw [prefer_of_gap hgap]
    cases other with
    | none => rfl
    | some value => cases value <;> rfl
  · push Not at hgap
    obtain ⟨value, rfl, hne⟩ := hgap
    rw [prefer_of_ne hne, prefer_of_ne hne]

theorem IsMetadata.applyMetadata_eq (h : IsMetadata document root) (page : Page) :
    applyMetadata document page = { page with
      apiVersion := prefer page.apiVersion (childText? root "apiVersion")
      label := prefer page.label (childText? root "label") } := by
  obtain ⟨metadata, hread, hversion, hlabel⟩ := h.exists_read
  rw [applyMetadata, hread, ← hversion, ← hlabel]

/-- Applying metadata that can be read a second time changes nothing. -/
theorem IsMetadata.applyMetadata_applyMetadata (h : IsMetadata document root) (page : Page) :
    applyMetadata document (applyMetadata document page) = applyMetadata document page := by
  simp only [h.applyMetadata_eq, prefer_prefer]

/-- Metadata touches the two settings and the warnings of a page. -/
theorem exists_parse_withMetadata (metadata : Option Text) : ∃ version label :
    Option Text → Option Text, ∀ config text, parse config text metadata =
      { parse config text none with
      apiVersion := version (parse config text none).apiVersion
      label := label (parse config text none).label
      warnings := (parse config text none).warnings ++ metadataWarnings metadata } := by
  cases hgiven : metadata.bind nonEmpty? with
  | none =>
    exact ⟨id, id, fun config text => by
      simp only [parse, metadataWarnings, hgiven, List.append_nil]; rfl⟩
  | some document =>
    cases hread : Metadata.read document with
    | error error =>
      refine ⟨id, id, fun config text => ?_⟩
      simp only [parse, metadataWarnings, hgiven, applyMetadata, hread]
      rfl
    | ok found =>
      refine ⟨(prefer · found.apiVersion), (prefer · found.label), fun config text => ?_⟩
      simp only [parse, metadataWarnings, hgiven, applyMetadata, hread, List.append_nil]
      rfl

theorem parse_some (config : Config) (text : Text) (hne : document ≠ []) :
    parse config text (some document) = applyMetadata document (parse config text none) := by
  obtain ⟨c, rest, rfl⟩ := List.exists_cons_of_ne_nil hne
  rfl

/-- For every source, configuration and metadata, the page is the one without metadata except for
version, label and warnings. Metadata that can be read adds no warning and fills the gaps among the
two settings with what it declares, once and for all; other metadata adds one warning and changes
nothing else, and an empty text is no metadata. -/
theorem ofSource_fillsGaps (config : Config) (source : Source) (document : Text) :
    let bare := ofSource config source none
    let page := ofSource config source (some document)
    page = { bare with
        apiVersion := page.apiVersion, label := page.label, warnings := page.warnings } ∧
    (∀ root, IsMetadata document root → page.warnings = bare.warnings ∧
      FillsGap bare.apiVersion (Declares root "apiVersion".toList) page.apiVersion ∧
      FillsGap bare.label (Declares root "label".toList) page.label ∧
      ∀ any, applyMetadata document (applyMetadata document any) = applyMetadata document any) ∧
    (document ≠ [] → (∀ root, ¬ IsMetadata document root) → ∃ reason,
      page = { bare with
          warnings := bare.warnings ++ ["Page metadata ignored: ".toList ++ reason] }) ∧
    (document = [] → page = bare) := by
  intro bare page
  refine ⟨?_, fun root hroot => ?_, fun hne hnone => ?_, ?_⟩
  · obtain ⟨version, label, h⟩ := exists_parse_withMetadata (some document)
    simp only [page, bare, ofSource, h]
  · have hne : document ≠ [] := by
      rintro rfl
      cases hroot.read
    have hpage : page = applyMetadata document bare := parse_some config source.toText hne
    rw [hpage, hroot.applyMetadata_eq]
    exact ⟨rfl, fillsGap_prefer _ _, fillsGap_prefer _ _, hroot.applyMetadata_applyMetadata⟩
  · obtain ⟨error, herror⟩ := exists_error_of_not_isMetadata hnone
    have hpage : page = applyMetadata document bare := parse_some config source.toText hne
    refine ⟨error.message, ?_⟩
    rw [hpage, applyMetadata, herror]
    rfl
  · rintro rfl
    rfl

def labelledPage : Text := "<apex:page label=\"Own\"/>".toList

def versionDocument : Text :=
  "<ApexPage xmlns:m=\"http://soap.sforce.com/2006/04/metadata\">".toList ++
  "<apiVersion>1</apiVersion><m:apiVersion> 59.0 </m:apiVersion>".toList ++
  "<label>L</label></ApexPage>".toList

/-- A document that is no metadata of a page. -/
def classDocument : Text := "<ApexClass/>".toList

theorem ofSource_labelledPage :
    (∃ root, IsMetadata versionDocument root) ∧
    (ofSource Config.standard (.text labelledPage) (some versionDocument)).apiVersion =
      some "59.0".toList ∧
    (ofSource Config.standard (.text labelledPage) (some versionDocument)).label =
      some "Own".toList ∧
    classDocument ≠ [] ∧ (∀ root, ¬ IsMetadata classDocument root) ∧
    ∃ reason, (ofSource Config.standard (.text labelledPage) (some classDocument)).warnings =
      (ofSource Config.standard (.text labelledPage) none).warnings ++
        ["Page metadata ignored: ".toList ++ reason] := by
  have hbare : ((ofSource Config.standard (.text labelledPage) none).apiVersion,
      (ofSource Config.standard (.text labelledPage) none).label) = (none, some "Own".toList) := by
      decide +kernel
  have hdocument : (Xml.read (Text.trim versionDocument)).toOption.map
      (fun root => (root.name.base, childText? root "apiVersion")) =
      some ("ApexPage".toList, some "59.0".toList) := by decide +kernel
  have hclass : (Xml.read (Text.trim classDocument)).toOption.map (·.name.base) =
    some "ApexClass".toList := by
    decide +kernel
  obtain ⟨hversion, hlabel⟩ := Prod.mk.inj hbare
  obtain ⟨root, hread⟩ : ∃ root, Xml.read (Text.trim versionDocument) = .ok root := by
    cases hread : Xml.read (Text.trim versionDocument) with
    | ok root => exact ⟨root, rfl⟩
    | error fault =>
      rw [hread] at hdocument
      cases hdocument
  rw [hread] at hdocument
  obtain ⟨hbase, hdeclared⟩ := Prod.mk.inj (Option.some.inj hdocument)
  have hroot : IsMetadata versionDocument root := ⟨hread, .inl hbase⟩
  have hnone : ∀ root, ¬ IsMetadata classDocument root := by
    rintro root ⟨hread, hroot⟩
    rw [hread] at hclass
    rw [show root.name.base = _ from Option.some.inj hclass] at hroot
    exact absurd hroot (by decide)
  have hne : classDocument ≠ [] := by decide
  obtain ⟨-, hfills, -⟩ := ofSource_fillsGaps Config.standard (.text labelledPage) versionDocument
  obtain ⟨-, hfilled, hkept, -⟩ := hfills root hroot
  obtain ⟨-, -, hignored, -⟩ :=
    ofSource_fillsGaps Config.standard (.text labelledPage) classDocument
  obtain ⟨reason, hreason⟩ := hignored hne hnone
  refine ⟨⟨root, hroot⟩, ?_, hkept.kept _ hlabel (by decide), hne, hnone, reason,
    congrArg (·.warnings) hreason⟩
  exact (hfilled.gap (by simp [hversion]) _).mpr (childText?_eq_some.mp hdeclared)

/-- An empty text is no document, but it leaves no warning. -/
theorem ofSource_emptyMetadata : (∀ root, ¬ IsMetadata [] root) ∧
    ∀ warning, ofSource Config.standard (.text labelledPage) (some []) ≠
      { ofSource Config.standard (.text labelledPage) none with
        warnings := (ofSource Config.standard (.text labelledPage) none).warnings ++
          [warning] } := by
  refine ⟨fun root h => (nomatch h.read), fun warning h => ?_⟩
  have hsame : ofSource Config.standard (.text labelledPage) (some []) =
      ofSource Config.standard (.text labelledPage) none := rfl
  rw [hsame] at h
  have hwarnings := congrArg (·.warnings) h
  exact List.cons_ne_nil warning [] (List.self_eq_append_right.mp hwarnings)

end Visualforce.Page
