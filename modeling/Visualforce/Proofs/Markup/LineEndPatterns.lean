import Visualforce.Markup.Build
import Visualforce.Proofs.Pattern.LineEndScan

/-! # Patterns of markup and line ends

None of the patterns with which markup is prepared can stop inside a line end, and none begins
there.
-/
namespace Visualforce.Markup
open Pattern Digest

variable {κ : Type} {c : Char} {name : Pattern OpaquePart} {accepts : Char → Bool}

theorem absorbs_starBlank : Absorbs (star blank : Pattern κ) := absorbs_manyOne (by decide) true

theorem keeps_quotedWith (hc : isLineEnd c = false) : Keeps (quotedWith c : Pattern κ) := by
  have hinside : ('\r' != c) = ('\n' != c) := by
    rw [bne, bne, (beq_lineEnd hc).1, (beq_lineEnd hc).2]
  exact ((keeps_char hc).append_absorbs (absorbs_manyOne hinside true)).append_keeps
    (keeps_char hc) (blocks_char hc)

theorem blocks_quotedWith (hc : isLineEnd c = false) : Blocks (quotedWith c : Pattern κ) :=
  ((blocks_char hc).append _).append _

theorem takesLineEnds_tagItem : TakesLineEnds (tagItem : Pattern κ) :=
  (takesLineEnds_one fun c hc => by rcases isLineEnd_iff.mp hc with rfl | rfl <;> decide).alt
    ((keeps_quotedWith (by decide)).alt (keeps_quotedWith (by decide)))

theorem absorbs_tagItems (greedy : Bool) : Absorbs (many greedy tagItem : Pattern κ) :=
  takesLineEnds_tagItem.absorbs greedy

theorem absorbs_equalsSign : Absorbs (equalsSign : Pattern κ) :=
  (absorbs_starBlank.append_keeps (keeps_char (by decide)) (blocks_char (by decide))).append_absorbs
    absorbs_starBlank

theorem keeps_quoteMark : Keeps (quoteMark : Pattern κ) := keeps_one (by decide) (by decide)

theorem blocks_quoteMark : Blocks (quoteMark : Pattern κ) := blocks_one (by decide)

section Opaque
variable (hname : Keeps name)
include hname

theorem keeps_opaqueOpening : Keeps (opaqueOpening name) := by
  have hguard : Keeps (guard fun here => here.before != some '/' : Pattern OpaquePart) := by
    refine keeps_guard fun {text here there} h => ?_
    have hslash : ∀ c, (some (unified c) != some '/') = (some c != some '/') :=
      @apply_unified (some · != some '/') (by decide)
    rw [h.unified, Cursor.between_before]
    cases here.before with
    | none => rfl
    | some c => exact (hslash c).symm
  have hitems := (((keeps_char (κ := OpaquePart) (c := '<') (by decide)).append hname).append
    keeps_wordEdge).append_absorbs (absorbs_tagItems false)
  exact (hitems.append hguard.absorbs (stays_guard _)).append_keeps (keeps_char (by decide))
    (blocks_char (by decide))

theorem keeps_opaqueElement : Keeps (opaqueElement name) := by
  have hclosing : Keeps (literal "</" ++ name ++ star blank ++ char '>' : Pattern OpaquePart) :=
    (((keeps_exactly (by decide)).append hname).append_absorbs absorbs_starBlank).append_keeps
      (keeps_char (by decide)) (blocks_char (by decide))
  have hbody : Absorbs (starLazy anyChar : Pattern OpaquePart) := absorbs_manyOne rfl false
  refine (((keeps_opaqueOpening hname).group _).append_absorbs (hbody.group _)).append_keeps
    (hclosing.group _) (Blocks.group ?_ _)
  exact (((blocks_exactly (by decide)).append _).append _).append _

end Opaque

theorem blocks_opaqueElement (name : Pattern OpaquePart) : Blocks (opaqueElement name) :=
  ((((((((blocks_char (by decide)).append _).append _).append _).append _).append _).group _).append
    _).append _

theorem keeps_tagName : Keeps (tagName : Pattern κ) :=
  (keeps_one (by decide) (by decide)).append ((keeps_one (by decide) (by decide)).many true)

theorem keeps_looseValue : Keeps (looseValue : Pattern κ) :=
  (keeps_quotedWith (by decide)).alt ((keeps_quotedWith (by decide)).alt
    (keeps_plusOne (by decide) (by decide)))

theorem blocks_looseValue : Blocks (looseValue : Pattern κ) :=
  (blocks_quotedWith (by decide)).alt ((blocks_quotedWith (by decide)).alt
    ((blocks_one (by decide)).append _))

theorem keeps_looseAttribute : Keeps looseAttribute :=
  ((keeps_plusOne (by decide) (by decide)).group _).append
    (absorbs_equalsSign.append_keeps (keeps_looseValue.group _) (blocks_looseValue.group _)).maybe

theorem blocks_looseAttribute : Blocks looseAttribute :=
  (((blocks_one (by decide)).append _).group _).append _

theorem ignores_startTagPattern : IgnoresLineEnds startTagPattern := by
  have hitem : Keeps (plus blank ++ looseAttribute) :=
    (absorbs_plusOne (by decide)).append_keeps keeps_looseAttribute blocks_looseAttribute
  have hattributes := ((keeps_char (κ := TagPart) (c := '<') (by decide)).append
    (keeps_tagName.group .tag)).append ((hitem.many true).group .attributes)
  have hslash : Keeps (group TagPart.closing (maybe (char '/'))) :=
    (keeps_char (by decide)).maybe.group _
  have hstays : Stays (group TagPart.closing (maybe (char '/'))) :=
    (blocks_char (by decide)).stays.maybe.group _
  have hkeeps : Keeps startTagPattern :=
    ((hattributes.append_absorbs absorbs_starBlank).append hslash.absorbs hstays).append_keeps
      (keeps_char (by decide)) (blocks_char (by decide))
  exact hkeeps.ignores
    ((((((blocks_char (by decide)).append _).append _).append _).append _).append _)

theorem keeps_entityName : Keeps (entityName : Pattern κ) :=
  (keeps_one (by decide) (by decide)).append ((keeps_one (by decide) (by decide)).many true)

theorem ignores_namedReference : IgnoresLineEnds namedReference :=
  (((keeps_char (by decide)).append (keeps_entityName.group _)).append
    (keeps_char (by decide))).ignores (((blocks_char (by decide)).append _).append _)

theorem ignores_looseAmpersand : IgnoresLineEnds looseAmpersand := by
  have hafter : Keeps afterAmpersand := by
    refine Keeps.append ?_ (keeps_char (by decide))
    exact ((keeps_char (by decide)).append (keeps_plusOne (by decide) (by decide))).alt
      (((keeps_exactly (by decide)).append (keeps_plusOne (by decide) (by decide))).alt
        keeps_entityName)
  exact ((keeps_char (by decide)).append hafter.notAhead).ignores
    ((blocks_char (by decide)).append _)

theorem ignores_sectionPattern : IgnoresLineEnds sectionPattern :=
  (((keeps_exactly (by decide)).append_absorbs (absorbs_manyOne rfl false)).append_keeps
    (keeps_exactly (by decide)) (blocks_exactly (by decide))).ignores
      (((blocks_exactly (by decide)).append _).append _)

theorem keeps_commentPattern : Keeps commentPattern :=
  ((keeps_exactly (by decide)).append_absorbs (absorbs_manyOne rfl false)).append_keeps
    (keeps_exactly (by decide)) (blocks_exactly (by decide))

theorem blocks_commentPattern : Blocks commentPattern :=
  ((blocks_exactly (by decide)).append _).append _

theorem ignores_namespaceDeclaration : IgnoresLineEnds namespaceDeclaration := by
  have hchars : Keeps (group DeclarationPart.name (plus (one isQualifierChar))) :=
    (keeps_plusOne (by decide) (by decide)).group _
  have hword := (keeps_wordEdge.append (keeps_exactly (by decide) : Keeps (literal "xmlns"))).append
    ((keeps_char (c := ':') (by decide)).append hchars).maybe
  have hspace : Absorbs (group DeclarationPart.space (star (noneOf "\"'"))) :=
    (absorbs_manyOne (by decide) true).group _
  have hkeeps : Keeps namespaceDeclaration := (((hword.append_absorbs
    absorbs_equalsSign).append_keeps keeps_quoteMark blocks_quoteMark).append_absorbs
      hspace).append_keeps keeps_quoteMark blocks_quoteMark
  exact hkeeps.ignores
    ((((((blocks_wordEdge.append _).append _).append _).append _).append _).append _)

theorem keeps_qualifier : Keeps (qualifier : Pattern κ) :=
  (keeps_one (by decide) (by decide)).append ((keeps_one (by decide) (by decide)).many true)

theorem ignores_tagQualifier : IgnoresLineEnds tagQualifier :=
  (((((keeps_char (by decide)).append (keeps_char (by decide)).maybe).append
    (keeps_qualifier.group _)).append (keeps_char (by decide))).append
      (keeps_one (by decide) (by decide))).ignores
        (((((blocks_char (by decide)).append _).append _).append _).append _)

theorem ignores_prologOrTag : IgnoresLineEnds prologOrTag := by
  have hkeeps : Keeps prologOrTag := keeps_commentPattern.alt (Keeps.alt
    (((keeps_exactly (by decide)).append_absorbs (absorbs_manyOne rfl false)).append_keeps
      (keeps_exactly (by decide)) (blocks_exactly (by decide)))
    (Keeps.alt
      (((keeps_exactly (by decide)).append_absorbs (absorbs_manyOne (by decide) true)).append_keeps
        (keeps_char (by decide)) (blocks_char (by decide)))
      (((keeps_char (by decide)).append keeps_tagName).group _)))
  exact hkeeps.ignores (blocks_commentPattern.alt
    (Blocks.alt (((blocks_exactly (by decide)).append _).append _)
      (Blocks.alt (((blocks_exactly (by decide)).append _).append _)
        (((blocks_char (by decide)).append _).group _))))

end Visualforce.Markup
