import Visualforce.Markup.Build
import Visualforce.Proofs.Markup.DeclaredTags
import Visualforce.Proofs.Markup.LineEndNormal
import Visualforce.Proofs.Markup.LineEndWrapping

/-! # Prepared markup and line ends

It makes no difference whether the line ends of markup are unified before it is prepared or after,
as long as no name of an opaque element holds one. The same qualifiers are declared in the prepared
text, for the same namespaces but for their line ends.
-/
namespace Visualforce.Markup
open Pattern Cursor Digest

variable {text name : Text}

theorem isLineEnd_of_isQualifierChar (h : ∀ c ∈ name, isQualifierChar c) :
    ∀ c ∈ name, isLineEnd c = false :=
  fun c hc => isLineEnd_eq_false (by decide) (by decide) (h c hc)

theorem map_unifyLineEnds_of_forall {names : List Text}
    (h : ∀ name ∈ names, ∀ c ∈ name, isQualifierChar c) : names.map unifyLineEnds = names := by
  have hid : names.map unifyLineEnds = names.map id := List.map_congr_left fun name hname =>
    unifyLineEnds_of_forall (isLineEnd_of_isQualifierChar (h name hname))
  rw [hid, List.map_id]

theorem tagQualifiers_unifyLineEnds (text : Text) :
    tagQualifier.findAll () (unifyLineEnds text) = tagQualifier.findAll () text := by
  rw [findAll_unifyLineEnds ignores_tagQualifier,
    map_unifyLineEnds_of_forall fun _ => isQualifierChar_of_mem_tagQualifiers]

theorem attributeQualifiers_unifyLineEnds (text : Text) :
    attributeQualifier.findAll () (unifyLineEnds text) = attributeQualifier.findAll () text := by
  have hchars : Keeps (plus (one isQualifierChar) : Pattern Unit) :=
    (keeps_one (by decide) (by decide)).append ((keeps_one (by decide) (by decide)).many true)
  have hkeeps : Keeps (group () qualifier ++ (char ':' ++ (plus (one isQualifierChar) ++
      (star blank ++ char '=')))) := by
    refine (keeps_qualifier.group ()).append ((keeps_char (by decide)).append (hchars.append ?_))
    exact absorbs_starBlank.append_keeps (keeps_char (by decide)) (blocks_char (by decide))
  have hblocks : Blocks (group () qualifier ++ (char ':' ++ (plus (one isQualifierChar) ++
      (star blank ++ char '=')))) :=
    (((blocks_one (by decide)).append _).group ()).append _
  rw [findAll_unifyLineEnds_behind (fun _ => rfl) (by decide) hkeeps
    hblocks, map_unifyLineEnds_of_forall fun _ => isQualifierChar_of_mem_attributeQualifiers]

theorem declarations_unifyLineEnds (text : Text) :
    declarations (unifyLineEnds text) =
      (declarations text).map fun entry => (entry.1, unifyLineEnds entry.2) := by
  have hall : declarations (unifyLineEnds text) =
      (declarations text).map fun entry => (unifyLineEnds entry.1, unifyLineEnds entry.2) :=
    map_hits_unifyLineEnds ignores_namespaceDeclaration text
      fun hhit => Prod.ext (hhit.group .name) (hhit.group .space)
  have hchars : PassesOnly (!isLineEnd ·) (plus (one isQualifierChar) : Pattern DeclarationPart) :=
    (passesOnly_one_calm (by decide) (by decide)).plus
  have hcaptures : Captures (fun other found => other = .name → ∀ c ∈ found, isLineEnd c = false)
      namespaceDeclaration :=
    ⟨⟨⟨⟨⟨⟨trivial, captures_exactly _⟩, ⟨trivial, ⟨trivial, trivial⟩,
      fun _ _ hleads _ => hchars.calm hleads⟩, trivial⟩,
      ⟨⟨trivial, trivial⟩, trivial⟩⟩, trivial⟩, trivial, fun _ _ _ hkey => nomatch hkey⟩, trivial⟩
  rw [hall]
  refine List.map_congr_left fun entry hentry => Prod.ext ?_ rfl
  obtain ⟨hit, hhit, rfl⟩ := List.mem_map.mp hentry
  exact unifyLineEnds_group hcaptures hhit

theorem undeclared_unifyLineEnds (text : Text) :
    undeclared (unifyLineEnds text) = undeclared text := by
  rw [undeclared, undeclared, tagQualifiers_unifyLineEnds, attributeQualifiers_unifyLineEnds,
    declarations_unifyLineEnds, List.map_map]
  rfl

theorem rel_find? {α β : Type} {related : α → β → Prop} {accepts : α → Bool} {accepts' : β → Bool}
    {first : List α} {second : List β} (h : List.Forall₂ related first second)
    (hsame : ∀ {a b}, related a b → accepts' b = accepts a) :
    Option.Rel related (first.find? accepts) (second.find? accepts') := by
  induction h with
  | nil => exact .none
  | @cons a b _ _ hab _ ih =>
    rw [List.find?_cons, List.find?_cons, hsame hab]
    cases accepts a with
    | true => exact .some hab
    | false => exact ih

theorem rel_rootTagEnd? (text : Text) :
    Option.Rel (SamePlace text) (rootTagEnd? text) (rootTagEnd? (unifyLineEnds text)) := by
  refine rel_map (rel_find? (hits_unifyLineEnds ignores_prologOrTag text) fun hhit => ?_)
    fun _ _ hhit => hhit.stop
  rw [hhit.group?, Option.isSome_map]

theorem exists_writeDeclaration (h : ∀ c ∈ name, isQualifierChar c) :
    ∃ more, writeDeclaration name = ' ' :: more ∧ ∀ c ∈ ' ' :: more, isLineEnd c = false := by
  have hcalm := isLineEnd_of_isQualifierChar h
  refine ⟨_, (writeDeclaration_eq name).trans (source_declarationOf name), ?_⟩
  refine List.forall_mem_cons.mpr ⟨by decide, List.forall_mem_append.mpr ⟨by decide, ?_⟩⟩
  refine List.forall_mem_cons.mpr ⟨by decide, List.forall_mem_append.mpr ⟨hcalm, ?_⟩⟩
  refine List.forall_mem_cons.mpr ⟨by decide, List.forall_mem_cons.mpr ⟨by decide, ?_⟩⟩
  refine List.forall_mem_append.mpr ⟨List.forall_mem_append.mpr ⟨by decide, hcalm⟩, by decide⟩

theorem declareQualifiers_unifyLineEnds (text : Text) :
    declareQualifiers (unifyLineEnds text) = unifyLineEnds (declareQualifiers text) := by
  rw [declareQualifiers, declareQualifiers, undeclared_unifyLineEnds]
  have hnames : ∀ name ∈ undeclared text, ∀ c ∈ name, isQualifierChar c :=
    fun _ => isQualifierChar_of_mem_undeclared
  generalize undeclared text = missing at hnames ⊢
  split_ifs with hempty
  · rfl
  · obtain ⟨hnone, hnone'⟩ | ⟨place, place', hsome, hsome', hplace⟩ :=
      rel_cases (rel_rootTagEnd? text)
    · rw [hnone, hnone']
    · rw [hsome, hsome']
      obtain ⟨⟨passed, htext, hbefore⟩, hwhole, rfl⟩ := hplace
      have hmeet : ¬MeetInLineEnd passed place.rest := fun h => hwhole ⟨hbefore.trans h.1, h.2⟩
      have htake (passed rest : Text) :
          (passed ++ rest).take ((passed ++ rest).length - rest.length) = passed := by
        rw [List.length_append, Nat.add_sub_cancel, List.take_left]
      obtain ⟨name, others, rfl⟩ := List.exists_cons_of_ne_nil (List.isEmpty_eq_false_iff.mp
        (Bool.of_not_eq_true hempty))
      have hcalm : ∀ c ∈ (name :: others).flatMap writeDeclaration, isLineEnd c = false := by
        intro c hc
        obtain ⟨other, hother, hc⟩ := List.mem_flatMap.mp hc
        obtain ⟨more, hmore, hcalm⟩ := exists_writeDeclaration (hnames other hother)
        exact hcalm c (hmore ▸ hc)
      have hhead (rest : Text) :
          ((name :: others).flatMap writeDeclaration ++ rest).head? ≠ some '\n' := by
        obtain ⟨more, hmore, -⟩ := exists_writeDeclaration (hnames name List.mem_cons_self)
        rw [List.flatMap_cons, hmore]
        simp
      simp only [Cursor.left_eq, between_rest]
      rw [htext, unifyLineEnds_append hmeet, htake, htake, List.append_assoc, List.append_assoc,
        unifyLineEnds_append_of_head (hhead _), unifyLineEnds_append_left hcalm]

theorem prepare_unifyLineEnds {config : Config} (h : CalmTags config.opaqueTags) (text : Text) :
    prepare config (unifyLineEnds text) = unifyLineEnds (prepare config text) := by
  rw [prepare, prepare, withoutMarks, withoutMarks, dropWhile_unifyLineEnds (by decide),
    trim_unifyLineEnds, wrapOpaque_unifyLineEnds h, normalizeOutsideSections_unifyLineEnds,
    declareQualifiers_unifyLineEnds]

end Visualforce.Markup
