import Visualforce.Proofs.Markup.LineEndPatterns

/-! # Wrapped bodies and line ends

It makes no difference whether the line ends of markup are unified before the bodies of its opaque
elements are wrapped or after, as long as no name of an opaque element holds one.
-/
namespace Visualforce.Markup
open Pattern Digest

variable {text : Text} {name : Pattern OpaquePart}

theorem splitClosings_unifyLineEnds (body : Text) :
    splitClosings (unifyLineEnds body) = unifyLineEnds (splitClosings body) :=
  replace_unifyLineEnds ((keeps_exactly (by decide)).ignores (blocks_exactly (by decide))) body
    fun _ _ => ⟨by decide, by decide, by decide, by decide⟩

theorem isClosed_of_opaqueElement {here : Cursor} {hit : Hit OpaquePart}
    (hname : Groupless name) (h : (opaqueElement name).matchAt here = some hit) :
    IsClosed hit.text ∧ ∀ key, key ≠ .body → hit.group key = [] ∨ IsClosed (hit.group key) := by
  have hopening : StartsWith '<' (opaqueOpening name) :=
    ((((startsWith_char.append _).append _).append _).append _).append _
  have hclosing : EndsWith '>' (literal "</" ++ name ++ star blank ++ char '>') :=
    endsWith_char.append _
  have hcaptures : Captures (fun key text => key ≠ .body → IsClosed text) (opaqueElement name) := by
    refine ⟨⟨⟨?_, fun _ _ hleads _ => ?_⟩, trivial, fun _ _ _ hkey => absurd rfl hkey⟩, ?_,
      fun _ _ hleads _ => ?_⟩
    · exact Groupless.captures ⟨⟨⟨⟨⟨trivial, hname⟩, trivial⟩, by decide⟩, trivial⟩, trivial⟩
    · exact isClosed_of_leads hopening (endsWith_char.append _) (by decide) (by decide) hleads
    · exact Groupless.captures ⟨⟨⟨by decide, hname⟩, trivial⟩, trivial⟩
    · exact isClosed_of_leads (((startsWith_exactly _).append _).append _ |>.append _) hclosing
        (by decide) (by decide) hleads
  refine ⟨?_, fun key hkey => ?_⟩
  · exact isClosed_of_matchAt (((hopening.group _).append _).append _)
      ((hclosing.group _).append _) (by decide) (by decide) h
  · exact (hcaptures.group h key).imp_right fun hkind => hkind hkey

theorem sectionOpening_calm : ∀ c ∈ sectionOpening, isLineEnd c = false := by decide

theorem sectionClosing_calm : ∀ c ∈ sectionClosing, isLineEnd c = false := by decide

theorem isClosed_sectionOpening : IsClosed sectionOpening := ⟨by decide, by decide, by decide⟩

theorem isClosed_sectionClosing : IsClosed sectionClosing := ⟨by decide, by decide, by decide⟩

theorem unifyLineEnds_append_closed {first second rest : Text} (h : IsClosed second) :
    unifyLineEnds (first ++ (second ++ rest)) =
      unifyLineEnds first ++ (unifyLineEnds second ++ unifyLineEnds rest) := by
  rw [unifyLineEnds_append_of_head, unifyLineEnds_append fun hmeet => h.last hmeet.1]
  rw [List.head?_append_of_ne_nil _ h.nonempty]
  exact h.first

theorem wrapBody_unified {here : Cursor} {hit hit' : Hit OpaquePart} (hname : Groupless name)
    (hmatch : (opaqueElement name).matchAt here = some hit) (hhit : UnifiedHit text hit hit') :
    wrapBody hit' = unifyLineEnds (wrapBody hit) ∧ IsClosed (wrapBody hit) := by
  obtain ⟨hwhole, hgroups⟩ := isClosed_of_opaqueElement hname hmatch
  have hopening := hgroups .opening (by decide)
  have hclosing := hgroups .closing (by decide)
  rw [wrapBody, wrapBody, hhit.group, hhit.group, hhit.group, hhit.text_eq, Text.isBlankText,
    Text.isBlankText, all_unifyLineEnds (by decide), splitClosings_unifyLineEnds]
  split_ifs
  · exact ⟨rfl, hwhole⟩
  · have hfront : IsClosed (hit.group .opening ++ sectionOpening) :=
      .append hopening (.inr isClosed_sectionOpening)
        (List.append_ne_nil_of_right_ne_nil _ isClosed_sectionOpening.nonempty)
    have hback : IsClosed (sectionClosing ++ hit.group .closing) :=
      .append (.inr isClosed_sectionClosing) hclosing
        (List.append_ne_nil_of_left_ne_nil isClosed_sectionClosing.nonempty _)
    have hjoined := hfront.between hback (splitClosings (hit.group .body))
    simp only [List.append_assoc] at hjoined ⊢
    refine ⟨?_, hjoined⟩
    rw [unifyLineEnds_append_closed isClosed_sectionOpening,
      unifyLineEnds_append_closed isClosed_sectionClosing,
      unifyLineEnds_of_forall sectionOpening_calm, unifyLineEnds_of_forall sectionClosing_calm]

theorem groupless_caseless {κ : Type} (word : Text) : Groupless (caseless word : Pattern κ) := by
  induction word with
  | nil => trivial
  | cons c word ih => exact ⟨trivial, ih⟩

/-- No name of an opaque element holds a line end. -/
def CalmTags (tags : List Text) : Prop := ∀ tag ∈ tags, ∀ c ∈ tag, isLineEnd c = false

theorem wrapOpaque_unifyLineEnds {tags : List Text} (h : CalmTags tags) (text : Text) :
    wrapOpaque tags (unifyLineEnds text) = unifyLineEnds (wrapOpaque tags text) := by
  induction tags generalizing text with
  | nil => rfl
  | cons tag tags ih =>
    obtain ⟨htag, htags⟩ := List.forall_mem_cons.mp h
    have hreplace : (opaqueElement (caseless tag)).replace wrapBody (unifyLineEnds text) =
        unifyLineEnds ((opaqueElement (caseless tag)).replace wrapBody text) :=
      replace_unifyLineEnds
        ((keeps_opaqueElement (keeps_caseless htag)).ignores (blocks_opaqueElement _))
        text (wrapBody_unified (groupless_caseless tag))
    have hrest := ih htags ((opaqueElement (caseless tag)).replace wrapBody text)
    rwa [← hreplace] at hrest

end Visualforce.Markup
