import Visualforce.Proofs.Markup.TagMatch

/-! # Visible markup of clear pages

A clear page has no comments, no sections and no opaque elements, so wrapping opaque elements and
leaving out what is not visible both change nothing.
-/
namespace Visualforce.Markup
open Pattern Cursor

variable {κ : Type} {groups : List (κ × Span)} {goOn : Place κ → Option (Place κ)}
variable {before : Option Char} {rest more : Text} {token : Token} {tokens : List Token}

theorem begins_commentPattern : Begins commentPattern (· == '<') :=
  ((Begins.literal rfl).append _).append _

theorem begins_sectionPattern : Begins sectionPattern (· == '<') :=
  ((Begins.literal rfl).append _).append _

theorem begins_opaqueElement (name : Pattern OpaquePart) : Begins (opaqueElement name) (· == '<') :=
  ((Begins.group (((((Begins.one _).append name).append _).append _).append _ |>.append _) _).append
    _).append _

theorem misses_commentPattern (h : token.IsClear) : Misses commentPattern token :=
  ((misses_exclamation rfl h).append _).append _

theorem misses_sectionPattern (h : token.IsClear) : Misses sectionPattern token :=
  ((misses_exclamation rfl h).append _).append _

theorem opaqueTags_lower : ∀ name ∈ Config.standard.opaqueTags,
    name ≠ [] ∧ ∀ c ∈ name, c.toNat < 128 ∧ c.toLower = c ∧ c ∉ [' ', '/', '>'] := by
  decide

/-- After the bracket of a tag comes no name of an opaque element. -/
theorem run_opaqueTag {name : Text} (hname : name ∈ Config.standard.opaqueTags) (h : token.IsClear)
    (htransparent : token.IsTransparent) (hsource : token.source = '<' :: more) :
    (caseless name).run ⟨between before (more ++ rest), groups⟩ goOn = none := by
  obtain ⟨hne, hlower⟩ := opaqueTags_lower name hname
  cases token with
  | text content =>
    have hcontent : content = '<' :: more := hsource
    exact absurd (hcontent ▸ List.mem_cons_self) (not_mem_text h)
  | opening head closes =>
    obtain ⟨-, rfl⟩ := List.cons_eq_cons.mp hsource
    rw [List.append_assoc, List.append_assoc]
    exact run_caseless_of_not_isPrefix _ hlower (Head.IsTransparent.ascii htransparent)
      (endsName_attributeSource head (endsName_tagEnd closes rest))
      (Head.IsTransparent.notOpaque htransparent name hname)
  | closing tag =>
    obtain ⟨-, rfl⟩ := List.cons_eq_cons.mp hsource
    refine run_caseless_of_not_isPrefix [] hlower (by simp)
      ⟨'/', tag ++ ['>'] ++ rest, by simp, by simp⟩ ?_
    simpa using hne

theorem misses_opaqueElement {name : Pattern OpaquePart}
    (hname : ∀ more, token.source = '<' :: more →
      ∀ before rest groups goOn, name.run ⟨between before (more ++ rest), groups⟩ goOn = none) :
    Misses (opaqueElement name) token := by
  intro more hsource before rest groups goOn
  simp [opaqueElement, opaqueOpening, char, hname more hsource]

theorem misses_opaqueTag {name : Text} (hname : name ∈ Config.standard.opaqueTags)
    (h : token.IsClear)
    (htransparent : token.IsTransparent) : Misses (opaqueElement (caseless name)) token :=
  misses_opaqueElement fun _ hsource _ _ _ _ => run_opaqueTag hname h htransparent hsource

theorem wrapOpaque_of_replace {names : List Text} {text : Text}
    (h : ∀ name ∈ names, (opaqueElement (caseless name)).replace wrapBody text = text) :
    wrapOpaque names text = text := by
  rw [wrapOpaque]
  induction names with
  | nil => rfl
  | cons name names ih =>
    obtain ⟨hname, hnames⟩ := List.forall_mem_cons.mp h
    rw [List.foldl_cons, hname]
    exact ih hnames

/-- Wrapping finds nothing to wrap on a clear page. -/
theorem wrapOpaque_sourceOf (h : ∀ token ∈ tokens, token.IsClear ∧ token.IsTransparent) :
    wrapOpaque Config.standard.opaqueTags (sourceOf tokens) = sourceOf tokens := by
  refine wrapOpaque_of_replace fun name hname => ?_
  refine replace_of_quiet (quiet_sourceOf (begins_opaqueElement _) fun token htoken => ?_)
  exact ⟨(h token htoken).1, misses_opaqueTag hname (h token htoken).1 (h token htoken).2⟩

theorem visible_sourceOf (h : ∀ token ∈ tokens, token.IsClear ∧ token.IsTransparent) :
    visible Config.standard (sourceOf tokens) = sourceOf tokens := by
  have hcomment : commentPattern.replace (fun _ => []) (sourceOf tokens) = sourceOf tokens :=
    replace_of_quiet (quiet_sourceOf begins_commentPattern fun token htoken =>
      ⟨(h token htoken).1, misses_commentPattern (h token htoken).1⟩)
  rw [visible, hcomment]
  refine replace_of_quiet (quiet_sourceOf (begins_opaqueElement _) fun token htoken => ?_)
  obtain ⟨hclear, htransparent⟩ := h token htoken
  refine ⟨hclear, misses_opaqueElement fun more hsource before rest groups goOn => ?_⟩
  have hnone : ∀ name ∈ Config.standard.opaqueTags,
      (caseless name).run ⟨between before (more ++ rest), groups⟩ goOn = none :=
    fun name hname => run_opaqueTag hname hclear htransparent hsource
  generalize Config.standard.opaqueTags = names at hnone
  induction names with
  | nil => rfl
  | cons name names ih =>
    obtain ⟨hname, hnames⟩ := List.forall_mem_cons.mp hnone
    cases names with
    | nil => exact hname
    | cons other names =>
      have halt : firstOf ((name :: other :: names).map (caseless (κ := OpaquePart))) =
          alt (caseless name) (firstOf ((other :: names).map caseless)) := rfl
      rw [halt, run_alt, hname, ih hnames]
      rfl

end Visualforce.Markup
