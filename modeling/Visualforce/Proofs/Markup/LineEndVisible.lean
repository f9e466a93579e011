import Visualforce.Proofs.Markup.LineEndWrapping

/-! # Visible markup and line ends

It makes no difference whether the line ends of markup are unified before its comments and opaque
bodies are left out or after, unless a comment stands inside a line end.
-/
namespace Visualforce.Markup
open Pattern Digest

variable {config : Config} {text : Text} {name : Pattern OpaquePart}

theorem groupless_firstOf {κ : Type} {patterns : List (Pattern κ)}
    (h : ∀ pattern ∈ patterns, Groupless pattern) : Groupless (firstOf patterns) := by
  induction patterns with
  | nil => trivial
  | cons pattern patterns ih =>
    obtain ⟨hpattern, hpatterns⟩ := List.forall_mem_cons.mp h
    cases patterns with
    | nil => exact hpattern
    | cons => exact ⟨hpattern, ih hpatterns⟩

/-- The end tag of an opaque element is always captured. -/
theorem isClosed_closing {here : Cursor} {hit : Hit OpaquePart}
    (h : (opaqueElement name).matchAt here = some hit) : IsClosed (hit.group .closing) := by
  obtain ⟨-, hleads⟩ := leads_of_matchAt h
  rw [opaqueElement] at hleads
  obtain ⟨middle, -, hclosing⟩ := leads_append.mp hleads
  obtain ⟨last, hend, hlast⟩ := leads_group.mp hclosing
  have hgroup : hit.group .closing = (middle.cursor.spanTo last.cursor).text := by
    rw [Hit.group, Hit.group?, (Place.mk.inj hlast).2]
    rfl
  rw [hgroup]
  exact isClosed_of_leads (((startsWith_exactly _).append _).append _ |>.append _)
    (endsWith_char.append _) (by decide) (by decide) hend

theorem visible_unifyLineEnds (htags : CalmTags config.opaqueTags)
    (hcomments : ¬PartsLineEnd (commentPattern.pieces text)) :
    visible config (unifyLineEnds text) = unifyLineEnds (visible config text) := by
  have hnames : ∀ name ∈ config.opaqueTags.map (caseless (κ := OpaquePart)),
      Keeps name ∧ Groupless name := by
    rw [List.forall_mem_map]
    exact fun tag htag => ⟨keeps_caseless (htags tag htag), groupless_caseless tag⟩
  have hkeeps := keeps_opaqueElement (keeps_firstOf fun name hname => (hnames name hname).1)
  have hgroupless := groupless_firstOf fun name hname => (hnames name hname).2
  rw [visible, visible, erase_unifyLineEnds (keeps_commentPattern.ignores blocks_commentPattern)
    hcomments]
  refine replace_unifyLineEnds (hkeeps.ignores (blocks_opaqueElement _)) _ fun hmatch hhit => ?_
  have hopening := (isClosed_of_opaqueElement hgroupless hmatch).2 .opening (by decide)
  have hclosing := isClosed_closing hmatch
  rw [hhit.group, hhit.group, unifyLineEnds_append_of_head hclosing.first]
  exact ⟨rfl, .append hopening (.inr hclosing)
    (List.append_ne_nil_of_right_ne_nil _ hclosing.nonempty)⟩

end Visualforce.Markup
