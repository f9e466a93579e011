import Visualforce.Proofs.Markup.Qualifiers
import Visualforce.Proofs.Markup.Sections
import Visualforce.Proofs.Text.Somewhere
import Visualforce.Proofs.Xml.ReadSection

/-! # Inert bodies

Preparation searches the whole page for opaque elements, for declarations and for qualifiers, also
where the text belongs to a section. A body is inert when no such search finds anything in it that
matters.
-/
namespace Visualforce.Markup
open Pattern Cursor
open Text (somewhere Skips EndsAt somewhere_append isInfix_iff_somewhere dropWhile_stop
  takeWhile_of_dropWhile_ne)

variable {name text body rest : Text} {contents : List Text} {before : Option Char}

def beginsWithName : Text → Text → Bool
  | [], _ => true
  | c :: name, d :: text => Text.sameUpToCase c d && beginsWithName name text
  | _ :: _, [] => false

def beginsEnd (name : Text) : Text → Bool
  | '<' :: '/' :: rest => beginsWithName name rest
  | _ => false

/-- Whether a tag of the given name begins here that an end tag follows. -/
def beginsElement (name : Text) : Text → Bool
  | '<' :: rest => beginsWithName name rest && somewhere (beginsEnd name) rest
  | _ => false

/-- Whether a qualifier begins here that no name of a document can have. -/
def beginsMisnamed (text : Text) : Bool :=
  text.head?.any isTagNameStart && (text.dropWhile isQualifierChar).head? == some ':' &&
    !(text.takeWhile isQualifierChar).all Xml.isNameChar

/-- How the qualifier of the root would be declared, and the namespace that belongs to it. -/
def rootMarks : List Text := ["xmlns:apex", "urn:apex"].map String.toList

/-- A body that keeps the passes over a page from taking it for anything but text. -/
structure IsInert (body : Text) : Prop where
  chars : ∀ c ∈ body, Xml.isSectionChar c
  elements : ∀ name ∈ Config.standard.opaqueTags, somewhere (beginsElement name) body = false
  marks : ∀ mark ∈ rootMarks, ¬ mark <:+: body
  names : somewhere beginsMisnamed body = false

theorem beginsWithName_stop {c : Char} (hc : ∀ d ∈ name, Text.sameUpToCase d c = false)
    (h : beginsWithName name (text ++ c :: rest)) (other : Text) :
    beginsWithName name (text ++ other) := by
  induction name generalizing text with
  | nil => rfl
  | cons d name ih =>
    obtain ⟨hd, hname⟩ := List.forall_mem_cons.mp hc
    cases text with
    | nil =>
      rw [List.nil_append, beginsWithName, hd] at h
      cases h
    | cons e text =>
      rw [List.cons_append, beginsWithName, Bool.and_eq_true] at h ⊢
      exact ⟨h.1, ih hname h.2⟩

theorem beginsEnd_iff : beginsEnd name text ↔ ∃ rest, text = '<' :: '/' :: rest ∧
    beginsWithName name rest := by
  constructor
  · intro h
    rw [beginsEnd.eq_def] at h
    split at h
    · exact ⟨_, rfl, h⟩
    · cases h
  · rintro ⟨rest, rfl, h⟩
    exact h

theorem beginsElement_iff : beginsElement name text ↔
    ∃ rest, text = '<' :: rest ∧ beginsWithName name rest ∧ somewhere (beginsEnd name) rest := by
  constructor
  · intro h
    rw [beginsElement.eq_def] at h
    split at h
    · exact ⟨_, rfl, Bool.and_eq_true_iff.mp h⟩
    · cases h
  · rintro ⟨rest, rfl, h⟩
    exact Bool.and_eq_true_iff.mpr h

theorem endsAt_beginsEnd {c : Char} (hc : ∀ d ∈ name, Text.sameUpToCase d c = false)
    (hslash : c ≠ '/') :
    EndsAt (beginsEnd name) c := by
  intro first more rest other h
  obtain ⟨after, heq, hname⟩ := beginsEnd_iff.mp h
  obtain ⟨rfl, htail⟩ := List.cons_eq_cons.mp heq
  cases more with
  | nil => exact absurd (List.cons_eq_cons.mp htail).1 hslash
  | cons second more =>
    obtain ⟨rfl, rfl⟩ := List.cons_eq_cons.mp htail
    exact beginsEnd_iff.mpr ⟨more ++ other, rfl, beginsWithName_stop hc hname other⟩

theorem beginsElement_stop {c : Char} (hc : ∀ d ∈ name, Text.sameUpToCase d c = false)
    (hslash : c ≠ '/')
    {first : Char} {more other : Text}
    (hrest : somewhere (beginsEnd name) (c :: rest) → somewhere (beginsEnd name) other)
    (h : beginsElement name (first :: more ++ c :: rest)) :
    beginsElement name (first :: more ++ other) := by
  obtain ⟨after, heq, hfront, hend⟩ := beginsElement_iff.mp h
  obtain ⟨rfl, rfl⟩ := List.cons_eq_cons.mp heq
  refine beginsElement_iff.mpr ⟨more ++ other, rfl, beginsWithName_stop hc hfront _, ?_⟩
  exact somewhere_append (fun first more h => endsAt_beginsEnd hc hslash first more _ _ h)
    hrest hend

theorem endsAt_beginsMisnamed : EndsAt beginsMisnamed ']' := by
  intro first more rest other h
  simp only [beginsMisnamed, Bool.and_eq_true, beq_iff_eq] at h ⊢
  obtain ⟨⟨hstart, hdrop⟩, htake⟩ := h
  obtain ⟨hne, hhead⟩ := dropWhile_stop (by decide) (by decide) hdrop
  rw [takeWhile_of_dropWhile_ne hne] at htake ⊢
  exact ⟨⟨hstart, hhead other⟩, htake⟩

/-- What begins nowhere in a body begins nowhere in the sections that hold it. -/
theorem somewhere_sections {begins : Text → Bool} {last : Text}
    (hopening : Skips begins sectionOpening)
    (hclosing : Skips begins sectionClosing) (hlast : somewhere begins last = false)
    (hstop : ∀ first more contents,
      begins (first :: more ++ (sectionClosing ++ (sectionsSource contents ++ last))) →
        begins (first :: more ++ contents.flatten)) (contents : List Text) :
    somewhere begins (sectionsSource contents ++ last) → somewhere begins contents.flatten := by
  induction contents with
  | nil =>
    intro h
    have hnone : somewhere begins last := h
    rw [hlast] at hnone
    cases hnone
  | cons content contents ih =>
    have hsource : sectionsSource (content :: contents) ++ last =
        sectionOpening ++ (content ++ (sectionClosing ++ (sectionsSource contents ++ last))) := by
      simp [sectionsSource, sectionSource]
    rw [hsource, hopening, List.flatten_cons]
    refine somewhere_append (fun first more => hstop first more contents) fun h => ih ?_
    rwa [hclosing] at h

theorem somewhere_sections_of_endsAt {begins : Text → Bool} {last : Text}
    (hopening : Skips begins sectionOpening) (hclosing : Skips begins sectionClosing)
    (hlast : somewhere begins last = false) (hends : EndsAt begins ']') (contents : List Text) :
    somewhere begins (sectionsSource contents ++ last) → somewhere begins contents.flatten := by
  refine somewhere_sections hopening hclosing hlast (fun first more contents h => ?_) contents
  rw [closing_eq] at h
  exact hends first more _ _ h

theorem opaqueTags_stop : ∀ name ∈ Config.standard.opaqueTags, ∀ d ∈ name,
    Text.sameUpToCase d '<' = false ∧ Text.sameUpToCase d ']' = false := by
  decide

section
variable (hname : name ∈ Config.standard.opaqueTags)
include hname

theorem somewhere_beginsElement_sections {last : Text}
    (hlast : somewhere (beginsEnd name) last = false)
    (hlast' : somewhere (beginsElement name) last = false) (contents : List Text) :
    somewhere (beginsElement name) (sectionsSource contents ++ last) →
      somewhere (beginsElement name) contents.flatten := by
  have hc : ∀ d ∈ name, Text.sameUpToCase d ']' = false :=
    fun d hd => (opaqueTags_stop name hname d hd).2
  have hopening : Skips (beginsElement name) sectionOpening := by
    rcases List.mem_cons.mp hname with rfl | hname
    · exact fun _ => rfl
    · obtain rfl := List.mem_singleton.mp hname
      exact fun _ => rfl
  have hends : EndsAt (beginsEnd name) ']' := endsAt_beginsEnd hc (by decide)
  refine somewhere_sections hopening (fun _ => rfl) hlast' (fun first more contents => ?_) contents
  rw [closing_eq]
  exact beginsElement_stop hc (by decide) fun h =>
    somewhere_sections_of_endsAt (fun _ => rfl) (fun _ => rfl) hlast hends contents h

theorem somewhere_beginsElement_append {last : Text}
    (hlast : somewhere (beginsEnd name) ('<' :: last) = false)
    (hlast' : somewhere (beginsElement name) ('<' :: last) = false) :
    somewhere (beginsElement name) (body ++ '<' :: last) → somewhere (beginsElement name) body := by
  have hc : ∀ d ∈ name, Text.sameUpToCase d '<' = false :=
    fun d hd => (opaqueTags_stop name hname d hd).1
  intro hbody
  rw [← List.append_nil body]
  refine somewhere_append (fun first more => beginsElement_stop hc (by decide) fun h => ?_)
    (fun h => ?_) hbody
  · rw [hlast] at h
    cases h
  · rw [hlast'] at h
    cases h

end

theorem quiet_of_somewhere {κ : Type} {pattern : Pattern κ} {begins : Text → Bool}
    (hpattern : ∀ {here hit}, pattern.matchAt here = some hit → begins here.rest)
    (h : somewhere begins (text ++ rest) = false) : Quiet pattern before text rest := by
  induction text generalizing before with
  | nil => trivial
  | cons c text ih =>
    rw [List.cons_append, somewhere, Bool.or_eq_false_iff] at h
    refine ⟨?_, ih h.2⟩
    cases hmatch : pattern.matchAt (between before (c :: (text ++ rest))) with
    | none => rfl
    | some hit =>
      have hbegins : begins (c :: (text ++ rest)) = true := hpattern hmatch
      rw [h.1] at hbegins
      cases hbegins

theorem beginsWithName_of_leads {κ : Type} {here there : Place κ}
    (h : Leads (caseless name) here there) :
    beginsWithName name here.cursor.rest := by
  induction name generalizing here with
  | nil => rfl
  | cons c name ih =>
    have hcons : (caseless (c :: name) : Pattern κ) = one (Text.sameUpToCase c) ++ caseless name :=
      rfl
    obtain ⟨middle, hone, hname⟩ := leads_append.mp (hcons ▸ h)
    obtain ⟨d, hrest, hd, -⟩ := hone.one_inv
    rw [hrest, beginsWithName, hd]
    exact ih hname

/-- The end tag of an opaque element. -/
def opaqueClosing (name : Text) : Pattern OpaquePart :=
  literal "</" ++ caseless name ++ star blank ++ char '>'

theorem beginsEnd_of_leads {here there : Place OpaquePart}
    (h : Leads (opaqueClosing name) here there) :
    beginsEnd name here.cursor.rest := by
  obtain ⟨_, h, -⟩ := leads_append.mp h
  obtain ⟨_, h, -⟩ := leads_append.mp h
  obtain ⟨middle, hmark, hname⟩ := leads_append.mp h
  have hrest : here.cursor.rest = '<' :: '/' :: middle.cursor.rest := hmark.exactly_inv.1
  exact beginsEnd_iff.mpr ⟨_, hrest, beginsWithName_of_leads hname⟩

theorem run_opaqueClosing_none (h : beginsEnd name text = false) (groups : List (OpaquePart × Span))
    (goOn : Place OpaquePart → Option (Place OpaquePart)) :
    (opaqueClosing name).run ⟨between before text, groups⟩ goOn = none := by
  by_contra hsome
  obtain ⟨last, hlast⟩ := Option.ne_none_iff_exists'.mp hsome
  obtain ⟨there, hleads, -⟩ := exists_leads hlast
  have hbegins : beginsEnd name text = true := beginsEnd_of_leads hleads
  rw [h] at hbegins
  cases hbegins

theorem opaqueElement_eq (name : Text) : opaqueElement (caseless name) =
    group .opening (opaqueOpening (caseless name)) ++ group .body (starLazy anyChar) ++
      group .closing (opaqueClosing name) := rfl

theorem beginsElement_of_matchAt {here : Cursor} {hit : Hit OpaquePart}
    (h : (opaqueElement (caseless name)).matchAt here = some hit) :
    beginsElement name here.rest := by
  rw [opaqueElement_eq] at h
  obtain ⟨behind, h, hlast⟩ := leads_append.mp (leads_of_matchAt h).2
  obtain ⟨middle, hfirst, hbody⟩ := leads_append.mp h
  obtain ⟨_, hopening, rfl⟩ := leads_group.mp hfirst
  obtain ⟨_, hclosing, -⟩ := leads_group.mp hlast
  obtain ⟨_, h, hend⟩ := leads_append.mp hopening
  obtain ⟨_, h, hguard⟩ := leads_append.mp h
  obtain ⟨_, h, hitems⟩ := leads_append.mp h
  obtain ⟨named, h, hedge⟩ := leads_append.mp h
  obtain ⟨bracket, hbracket, hname⟩ := leads_append.mp h
  have hrest : here.rest = '<' :: bracket.cursor.rest := hbracket.char_inv.1
  have hsuffix : behind.cursor.rest <:+ bracket.cursor.rest :=
    hbody.rest_suffix.trans (hend.rest_suffix.trans (hguard.rest_suffix.trans
      (hitems.rest_suffix.trans (hedge.rest_suffix.trans hname.rest_suffix))))
  have hclose := beginsEnd_of_leads hclosing
  refine beginsElement_iff.mpr ⟨_, hrest, beginsWithName_of_leads hname,
    Text.somewhere_of_suffix hsuffix ?_ hclose⟩
  obtain ⟨_, hcons, -⟩ := beginsEnd_iff.mp hclose
  exact hcons ▸ List.cons_ne_nil _ _

theorem replace_opaqueElement (h : somewhere (beginsElement name) text = false)
    (write : Hit OpaquePart → Text) :
    (opaqueElement (caseless name)).replace write text = text :=
  replace_of_quiet (quiet_of_somewhere beginsElement_of_matchAt (by rwa [List.append_nil]))

theorem group_of_cons {κ : Type} [BEq κ] [ReflBEq κ] {hit : Hit κ} {key : κ} {span : Span}
    {more : List (κ × Span)} (h : hit.groups = (key, span) :: more) :
    hit.group key = span.text := by
  rw [Hit.group, Hit.group?, h, List.lookup_cons_self]
  rfl

/-- A text that stands before a colon in another one, spelled as a qualifier. -/
structure Qualifies (name text : Text) : Prop where
  place : ∃ rest, name ++ ':' :: rest <:+ text
  start : name.head?.any isTagNameStart
  chars : ∀ c ∈ name, isQualifierChar c

theorem Qualifies.of_suffix {tail : Text} (h : Qualifies name tail) (htail : tail <:+ text) :
    Qualifies name text :=
  ⟨h.place.imp fun _ hplace => hplace.trans htail, h.start, h.chars⟩

/-- Such a text is a qualifier of a document when it is not misspelled. -/
theorem Qualifies.isPart (h : Qualifies name text)
    (hnames : somewhere beginsMisnamed text = false) :
    isPart name := by
  obtain ⟨⟨rest, hplace⟩, hstart, hchars⟩ := h
  have hcolon : isQualifierChar ':' = false := by decide
  have hmisnamed := Text.begins_of_suffix hnames hplace (by simp)
  cases name with
  | nil => cases hstart
  | cons c name =>
    rw [beginsMisnamed, List.dropWhile_append_of_pos hchars, List.takeWhile_append_of_pos hchars,
      List.dropWhile_cons_of_neg (by simp [hcolon]), List.takeWhile_cons_of_neg (by simp [hcolon]),
      List.append_nil] at hmisnamed
    have hc : isTagNameStart c := hstart
    simp only [List.cons_append, List.head?_cons, Option.any_some, hc, beq_self_eq_true,
      Bool.and_true, Bool.true_and, Bool.not_eq_false', List.all_eq_true] at hmisnamed
    rw [Markup.isPart, Bool.and_eq_true, List.all_eq_true]
    refine ⟨hc, fun d hd => ?_⟩
    rw [isPartChar, hchars d (.tail c hd), hmisnamed d (.tail c hd)]
    rfl

theorem leads_qualifier {here middle there : Place Unit}
    (h : Leads (group () qualifier) here middle)
    (hcolon : Leads (char ':') middle there) : ∃ span : Span,
      there.groups = ((), span) :: here.groups ∧ Qualifies span.text here.cursor.rest := by
  obtain ⟨last, hbody, rfl⟩ := leads_group.mp h
  obtain ⟨second, hfirst, hmore⟩ := leads_append.mp hbody
  obtain ⟨c, hrest, hc, hgroups⟩ := hfirst.one_inv
  obtain ⟨passed, hpassed, hchars, hgroups'⟩ := hmore.manyOne_inv
  obtain ⟨hend, hgroups''⟩ := hcolon.char_inv
  have hname : here.cursor.rest = (c :: passed) ++ last.cursor.rest := by
    rw [hrest, hpassed]
    rfl
  refine ⟨here.cursor.spanTo last.cursor, by rw [hgroups'', hgroups', hgroups], ?_⟩
  rw [spanTo_text_of_rest hname, hname]
  refine ⟨⟨there.cursor.rest, ?_⟩, hc, List.forall_mem_cons.mpr ⟨?_, hchars⟩⟩
  · exact hend ▸ List.suffix_refl _
  · exact isQualifierChar_of_isPartChar (isPartChar_of_isTagNameStart hc)

theorem qualifies_of_mem_tagQualifier {hit : Hit Unit} (h : hit ∈ tagQualifier.hits text) :
    Qualifies (hit.group ()) text := by
  obtain ⟨here, hhere, hmatch⟩ := exists_matchAt_of_mem_hits h
  obtain ⟨_, h, hlast⟩ := leads_append.mp (leads_of_matchAt hmatch).2
  obtain ⟨_, h, hcolon⟩ := leads_append.mp h
  obtain ⟨place, hfront, hqualifier⟩ := leads_append.mp h
  obtain ⟨span, hgroups, hqualifies⟩ := leads_qualifier hqualifier hcolon
  obtain ⟨_, -, -, hgroups'⟩ := hlast.one_inv
  rw [group_of_cons (hgroups'.trans hgroups)]
  exact hqualifies.of_suffix (hfront.rest_suffix.trans hhere)

theorem qualifies_of_mem_attributeQualifier {hit : Hit Unit}
    (h : hit ∈ attributeQualifier.hits text) :
    Qualifies (hit.group ()) text := by
  obtain ⟨here, hhere, hmatch⟩ := exists_matchAt_of_mem_hits h
  obtain ⟨_, h, hequals⟩ := leads_append.mp (leads_of_matchAt hmatch).2
  obtain ⟨_, h, hblanks⟩ := leads_append.mp h
  obtain ⟨_, h, hname⟩ := leads_append.mp h
  obtain ⟨_, h, hcolon⟩ := leads_append.mp h
  obtain ⟨place, hfront, hqualifier⟩ := leads_append.mp h
  obtain ⟨span, hgroups, hqualifies⟩ := leads_qualifier hqualifier hcolon
  obtain ⟨_, hfirst, hmore⟩ := leads_append.mp hname
  obtain ⟨_, -, -, hgroups₁⟩ := hfirst.one_inv
  obtain ⟨_, -, -, hgroups₂⟩ := hmore.manyOne_inv
  obtain ⟨_, -, -, hgroups₃⟩ := hblanks.manyOne_inv
  obtain ⟨-, hgroups₄⟩ := hequals.char_inv
  have hall := hgroups₄.trans (hgroups₃.trans (hgroups₂.trans (hgroups₁.trans hgroups)))
  rw [group_of_cons hall]
  exact hqualifies.of_suffix (hfront.rest_suffix.trans hhere)

/-- Every qualifier in use is declared when no text can be taken for one that is misspelled. -/
theorem isQualifier_of_mem_undeclared (h : somewhere beginsMisnamed text = false) :
    ∀ name ∈ undeclared text, IsQualifier name := by
  intro name hname
  obtain ⟨hused, hfree⟩ := List.mem_filter.mp hname
  rw [mem_dedupe, List.mem_append] at hused
  have hqualifies : Qualifies name text := by
    rcases hused with hused | hused
    · obtain ⟨hit, hhit, rfl⟩ := List.mem_map.mp hused
      exact qualifies_of_mem_tagQualifier hhit
    · obtain ⟨hit, hhit, rfl⟩ := List.mem_map.mp hused
      exact qualifies_of_mem_attributeQualifier hhit
  rw [Bool.and_eq_true, Bool.not_eq_true', Bool.not_eq_true'] at hfree
  exact ⟨hqualifies.isPart h, hfree.2⟩

theorem groups_of_equalsSign {κ : Type} {here there : Place κ} (h : Leads equalsSign here there) :
    there.groups = here.groups := by
  obtain ⟨_, h, hafter⟩ := leads_append.mp h
  obtain ⟨_, hbefore, hsign⟩ := leads_append.mp h
  obtain ⟨_, -, -, hgroups₁⟩ := hbefore.manyOne_inv
  obtain ⟨-, hgroups₂⟩ := hsign.char_inv
  obtain ⟨_, -, -, hgroups₃⟩ := hafter.manyOne_inv
  exact hgroups₃.trans (hgroups₂.trans hgroups₁)

/-- The qualifier of a declaration stands behind the word and its namespace in the text ahead. -/
theorem declaredAt_of_matchAt {here : Cursor} {hit : Hit DeclarationPart}
    (h : namespaceDeclaration.matchAt here = some hit) :
    ((declaredAt hit).1 ≠ [] → "xmlns".toList ++ ':' :: (declaredAt hit).1 <+: here.rest) ∧
      (declaredAt hit).2 <:+: here.rest := by
  obtain ⟨_, h, hclose⟩ := leads_append.mp (leads_of_matchAt h).2
  obtain ⟨opened, h, hgroup⟩ := leads_append.mp h
  obtain ⟨_, h, hopen⟩ := leads_append.mp h
  obtain ⟨named, h, hequals⟩ := leads_append.mp h
  obtain ⟨worded, h, hmaybe⟩ := leads_append.mp h
  obtain ⟨edged, hedge, hword⟩ := leads_append.mp h
  obtain ⟨last, hspace, rfl⟩ := leads_group.mp hgroup
  obtain ⟨space, hpassed, -, hgroups₁⟩ := hspace.manyOne_inv
  obtain ⟨_, -, -, hgroups₂⟩ := hopen.one_inv
  obtain ⟨_, -, -, hgroups₃⟩ := hclose.one_inv
  have hgroups : hit.groups = (.space, opened.cursor.spanTo last.cursor) :: named.groups := by
    rw [← groups_of_equalsSign hequals, ← hgroups₂, ← hgroups₁]
    exact hgroups₃
  obtain ⟨hrest, hnone⟩ : here.rest = "xmlns".toList ++ worded.cursor.rest ∧ worded.groups =
    [] := by
    cases hedge
    exact hword.exactly_inv
  have hsuffix : opened.cursor.rest <:+ here.rest := by
    have hworded : worded.cursor.rest <:+ here.rest := hrest ▸ List.suffix_append _ _
    exact hopen.rest_suffix.trans (hequals.rest_suffix.trans (hmaybe.rest_suffix.trans hworded))
  have hlookup : (declaredAt hit).1 = ((named.groups.lookup .name).map Span.text).getD [] := by
    rw [declaredAt, Hit.group, Hit.group?, hgroups]
    rfl
  refine ⟨fun hne => ?_, ?_⟩
  · rcases leads_maybe.mp hmaybe with hname | rfl
    · obtain ⟨colon, hcolon, hnamed⟩ := leads_append.mp hname
      obtain ⟨behind, hbody, rfl⟩ := leads_group.mp hnamed
      obtain ⟨_, hone, hmany⟩ := leads_append.mp hbody
      obtain ⟨c, hfirst, -, -⟩ := hone.one_inv
      obtain ⟨passed, hmore, -, -⟩ := hmany.manyOne_inv
      have hspan : colon.cursor.rest = (c :: passed) ++ behind.cursor.rest := by
        rw [hfirst, hmore]
        rfl
      have htext : (declaredAt hit).1 = c :: passed := by
        rw [hlookup, List.lookup_cons_self, Option.map_some, Option.getD_some,
          spanTo_text_of_rest hspan]
      rw [htext, hrest, hcolon.char_inv.1, hspan]
      exact ⟨behind.cursor.rest, by simp⟩
    · exact absurd (by rw [hlookup, hnone]; rfl) hne
  · have htext : (declaredAt hit).2 = space := by
      rw [declaredAt, group_of_cons hgroups, spanTo_text_of_rest hpassed]
    rw [htext]
    exact (hpassed ▸ List.prefix_append space _).isInfix.trans hsuffix.isInfix

theorem declaredAt_ne (hmarks : ∀ mark ∈ rootMarks, ¬ mark <:+: text) {there : Cursor}
    (hthere : there.rest <:+ text) {hit : Hit DeclarationPart}
    (h : namespaceDeclaration.matchAt there = some hit) :
    (declaredAt hit).1 ≠ "apex".toList ∧ (declaredAt hit).2 ≠ "urn:apex".toList := by
  obtain ⟨hname, hspace⟩ := declaredAt_of_matchAt h
  constructor
  · intro heq
    have hmark : "xmlns".toList ++ ':' :: "apex".toList = "xmlns:apex".toList := by decide
    rw [heq, hmark] at hname
    exact hmarks _ (by decide) ((hname (by decide)).isInfix.trans hthere.isInfix)
  · intro heq
    rw [heq] at hspace
    exact hmarks _ (by decide) (hspace.trans hthere.isInfix)

/-- The qualifier of the root is used, and in a text without its marks it is not declared. -/
theorem mem_undeclared {left : Text}
    (hmarks : ∀ mark ∈ rootMarks, ¬ mark <:+: '<' :: (pageRoot ++ left)) :
    "apex".toList ∈ undeclared ('<' :: (pageRoot ++ left)) := by
  have hspace : isPart "apex".toList := by decide
  obtain ⟨hit, hmatch, hstop, hgroup⟩ :=
    matchAt_tagQualifier hspace (by decide : isTagNameStart 'p') false none ("age".toList ++ left)
  obtain ⟨more, hhits⟩ := hits_of_matchAt hmatch (by
    rw [hstop]
    simp only [between_left, List.length_cons, List.length_append]
    omega)
  refine List.mem_filter.mpr ⟨?_, ?_⟩
  · rw [mem_dedupe, List.mem_append]
    refine .inl (List.mem_map.mpr ⟨hit, ?_, hgroup⟩)
    exact hhits ▸ List.mem_cons_self
  · rw [Bool.and_eq_true, Bool.not_eq_true', Bool.not_eq_true']
    refine ⟨?_, by decide⟩
    rw [← Bool.not_eq_true, List.contains_iff_mem, declarations, List.map_map]
    intro hmem
    obtain ⟨declared, hdeclared, hname⟩ := List.mem_map.mp hmem
    obtain ⟨there, hthere, hmatch⟩ := exists_matchAt_of_mem_hits hdeclared
    exact (declaredAt_ne hmarks hthere hmatch).1 hname

end Visualforce.Markup
