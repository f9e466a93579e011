import Visualforce.Page.Resources
import Visualforce.Proofs.Expression.LineEnds
import Visualforce.Proofs.Markup.LineEndVisible

/-! # Patterns of raw markup and line ends

None of the patterns that a page is recovered with, and none of those for its scripts, forms and
fragments, tells the line ends of a text apart.
-/
namespace Visualforce.Page
open Pattern Markup Digest

variable {κ : Type} {text : Text}

/-- No character of a name is a line end. -/
abbrev IsCalm (name : String) : Prop := ∀ c ∈ name.toList, isLineEnd c = false

theorem keeps_quotedValue (key : κ) : Keeps (quotedValue key : Pattern κ) :=
  Keeps.alt
    (((keeps_char (by decide)).append_absorbs
      ((absorbs_manyOne (by decide) true).group key)).append_keeps
        (keeps_char (by decide)) (blocks_char (by decide)))
    (((keeps_char (by decide)).append_absorbs
      ((absorbs_manyOne (by decide) true).group key)).append_keeps
        (keeps_char (by decide)) (blocks_char (by decide)))

theorem blocks_quotedValue (key : κ) : Blocks (quotedValue key : Pattern κ) :=
  (((blocks_char (by decide)).append _).append _).alt
    (((blocks_char (by decide)).append _).append _)

theorem ignores_attributePair : IgnoresLineEnds attributePair :=
  ((((keeps_plusOne (by decide) (by decide)).group _).append_absorbs
    absorbs_equalsSign).append_keeps (keeps_quotedValue _) (blocks_quotedValue _)).ignores
      (((((blocks_one (by decide)).append _).group _).append _).append _)

theorem ignores_pageTag : IgnoresLineEnds pageTag :=
  ((((keeps_caseless (by decide)).append keeps_wordEdge).append_absorbs
    ((absorbs_tagItems true).group _)).append_keeps
      (keeps_char (by decide)) (blocks_char (by decide))).ignores
        ((((blocks_caseless (by decide)).append _).append _).append _)

theorem ignores_assignment {name : String} (hname : IsCalm name) :
    IgnoresLineEnds (assignment name) := by
  have hopening : Keeps (wordEdge ++ literal name ++ equalsSign ++ quoteMark : Pattern Unit) :=
    ((keeps_wordEdge.append (keeps_exactly hname)).append_absorbs absorbs_equalsSign).append_keeps
      keeps_quoteMark blocks_quoteMark
  have hvalue : Absorbs (group () (star (noneOf "\"'"))) :=
    (absorbs_manyOne (by decide) true).group ()
  exact ((hopening.append_absorbs hvalue).append_keeps keeps_quoteMark blocks_quoteMark).ignores
    (((((blocks_wordEdge.append _).append _).append _).append _).append _)

theorem keeps_componentWord : Keeps (componentWord : Pattern κ) :=
  (keeps_one (by decide) (by decide)).append ((keeps_one (by decide) (by decide)).many true)

theorem ignores_componentName : IgnoresLineEnds componentName :=
  ((((keeps_char (by decide)).append (keeps_componentWord.group _)).append
    (keeps_char (by decide))).append (keeps_componentWord.group _)).ignores
      ((((blocks_char (by decide)).append _).append _).append _)

/-- A name somewhere behind a tag, before its end. -/
theorem keeps_nameBehind {tag : Pattern κ} {name : String} (htag : Keeps tag)
    (hname : IsCalm name) : Keeps (tag ++ starLazy (noneOf ">") ++ wordEdge ++ literal name) :=
  ((htag.append_absorbs (absorbs_manyOne (by decide) false)).append_keeps
    keeps_wordEdge blocks_wordEdge).append (keeps_exactly hname)

theorem ignores_boundExpression {tag : Pattern Unit} {name : String} (htag : Keeps tag)
    (hname : IsCalm name) : IgnoresLineEnds (boundExpression tag name) := by
  have hopening : Keeps (char '<' ++ plus (one isComponentChar) ++ char ':' ++ tag ++ wordEdge) :=
    ((((keeps_char (by decide)).append (keeps_plusOne (by decide) (by decide))).append
      (keeps_char (by decide))).append htag).append keeps_wordEdge
  have hvalue : Absorbs (alt (char '"' ++ starLazy (noneOf "\""))
      (char '\'' ++ starLazy (noneOf "'")) : Pattern Unit) :=
    ((keeps_char (by decide)).append_absorbs (absorbs_manyOne (by decide) false)).alt
      ((keeps_char (by decide)).append_absorbs (absorbs_manyOne (by decide) false))
  have hquotes : Blocks (alt (char '"' ++ starLazy (noneOf "\""))
      (char '\'' ++ starLazy (noneOf "'")) : Pattern Unit) :=
    ((blocks_char (by decide)).append _).alt ((blocks_char (by decide)).append _)
  have hfront := ((keeps_nameBehind hopening hname).append_absorbs absorbs_equalsSign).append hvalue
    hquotes.stays
  -- only the last step of the match may depend on what goes on behind it
  refine ⟨hfront.run Expression.follows_mergeField
    (Expression.ignores_mergeField.blocks.run some), ?_⟩
  exact ((((((((((blocks_char (by decide)).append _).append _).append _).append _).append _).append
    _).append _).append _).append _).append _

theorem ignores_inputBinding : IgnoresLineEnds inputBinding :=
  ignores_boundExpression (((keeps_exactly (by decide)).alt (keeps_exactly (by decide))).append
    ((keeps_one (by decide) (by decide)).many true)) (by decide)

theorem ignores_buttonAction : IgnoresLineEnds buttonAction :=
  ignores_boundExpression ((keeps_exactly (by decide)).append
    ((keeps_exactly (by decide)).alt (keeps_exactly (by decide)))) (by decide)

theorem ignores_openTag {name : String} (hname : IsCalm name)
    (hblocks : Blocks (literal name : Pattern Unit)) : IgnoresLineEnds (openTag name) :=
  ((((keeps_exactly hname).append keeps_wordEdge).append_absorbs
    ((absorbs_tagItems true).group _)).append_keeps
      (keeps_char (by decide)) (blocks_char (by decide))).ignores
        (((hblocks.append _).append _).append _)

theorem ignores_panelOpening : IgnoresLineEnds panelOpening := by
  have hslash : Keeps (group PanelPart.slash (maybe (char '/')) ++ char '>') :=
    ((keeps_char (by decide)).maybe.group _).append (keeps_char (by decide))
  have hblocks : Blocks (group PanelPart.slash (maybe (char '/')) ++ char '>') :=
    ((blocks_char (by decide)).stays.maybe.group _).append_blocks (blocks_char (by decide))
  have hname : Keeps (literal "<apex:outputPanel" : Pattern PanelPart) := keeps_exactly (by decide)
  have hkeeps := ((hname.append keeps_wordEdge).append_absorbs
      ((absorbs_tagItems false).group .attributes)).append_keeps hslash hblocks
  exact Keeps.ignores ⟨hkeeps.run⟩
    (((((blocks_exactly (by decide)).append _).append _).append _).append _)

theorem ignores_panelClosing : IgnoresLineEnds panelClosing :=
  (((keeps_exactly (by decide)).append_absorbs absorbs_starBlank).append_keeps
    (keeps_char (by decide)) (blocks_char (by decide))).ignores
      (((blocks_exactly (by decide)).append _).append _)

theorem ignores_scriptElement : IgnoresLineEnds scriptElement := by
  have hbody : Keeps (char '>' ++ group ScriptPart.body (starLazy anyChar) ++ anyCase "</script" ++
      star blank ++ char '>') :=
    (((((keeps_char (by decide)).append_absorbs ((absorbs_manyOne rfl false).group _)).append_keeps
      (keeps_caseless (by decide)) (blocks_caseless (by decide))).append_absorbs
        absorbs_starBlank).append_keeps (keeps_char (by decide)) (blocks_char (by decide)))
  have hend : Keeps (alt (literal "/>") (char '>' ++ group ScriptPart.body (starLazy anyChar) ++
      anyCase "</script" ++ star blank ++ char '>')) := (keeps_exactly (by decide)).alt hbody
  have hblocks : Blocks (alt (literal "/>") (char '>' ++ group ScriptPart.body (starLazy anyChar) ++
      anyCase "</script" ++ star blank ++ char '>')) :=
    (blocks_exactly (by decide)).alt
      (((((blocks_char (by decide)).append _).append _).append _).append _)
  exact ((((keeps_caseless (by decide)).append keeps_wordEdge).append_absorbs
    ((absorbs_tagItems false).group _)).append_keeps hend hblocks).ignores
      ((((blocks_caseless (by decide)).append _).append _).append _)

theorem ignores_scriptSource : IgnoresLineEnds scriptSource := by
  have hopening : Keeps (wordEdge ++ anyCase "src" ++ equalsSign ++ quoteMark : Pattern Unit) :=
    ((keeps_wordEdge.append (keeps_caseless (by decide))).append_absorbs
      absorbs_equalsSign).append_keeps keeps_quoteMark blocks_quoteMark
  have hvalue : Absorbs (group () (plus (noneOf "\"'"))) := (absorbs_plusOne (by decide)).group ()
  exact ((hopening.append_absorbs hvalue).append_keeps keeps_quoteMark blocks_quoteMark).ignores
    (((((blocks_wordEdge.append _).append _).append _).append _).append _)

theorem ignores_includeDirective : IgnoresLineEnds includeDirective := by
  have htag : Keeps (literal "<apex:" ++ alt (literal "includeScript") (literal "stylesheet") ++
      wordEdge : Pattern Unit) :=
    ((keeps_exactly (by decide)).append
      ((keeps_exactly (by decide)).alt (keeps_exactly (by decide)))).append keeps_wordEdge
  exact (((keeps_nameBehind htag (by decide)).append_absorbs absorbs_equalsSign).append_keeps
    (keeps_quotedValue ()) (blocks_quotedValue ())).ignores
      ((((((((blocks_exactly (by decide)).append _).append _).append _).append _).append _).append
        _).append _)

theorem ignores_resourceName : IgnoresLineEnds resourceName :=
  ((keeps_exactly (by decide)).append ((keeps_plusOne (by decide) (by decide)).group _)).ignores
    ((blocks_exactly (by decide)).append _)

theorem keeps_externalUrl : Keeps externalUrl := by
  have hurl : Keeps (anyCase "http" ++ maybe (anyCase "s") ++ literal "://" ++
      plus (one (!Text.isBlank ·)) : Pattern Unit) :=
    (((keeps_caseless (by decide)).append (keeps_caseless (by decide)).maybe).append
      (keeps_exactly (by decide))).append (keeps_plusOne (by decide) (by decide))
  exact absorbs_starBlank.append_keeps (hurl.group ())
    (((((blocks_caseless (by decide)).append _).append _).append _).group ())

theorem ignores_formOpening : IgnoresLineEnds formOpening :=
  ((keeps_caseless (by decide)).append keeps_wordEdge).ignores
    ((blocks_caseless (by decide)).append _)

theorem ignores_fragment {tag name : String} (htag : IsCalm tag) (hname : IsCalm name)
    (hblocks : Blocks (literal tag : Pattern Unit)) : IgnoresLineEnds (fragment tag name) := by
  have hgap : Absorbs (plus blank ++ starLazy (noneOf ">") : Pattern Unit) :=
    absorbs_plusOne_lazy (by decide) (by decide) (by decide)
  have hnamed := (((keeps_exactly (κ := Unit) htag).append_absorbs hgap).append_keeps keeps_wordEdge
    blocks_wordEdge).append (keeps_exactly hname)
  have hopening := (hnamed.append_absorbs absorbs_equalsSign).append_keeps keeps_quoteMark
    blocks_quoteMark
  have hvalue : Absorbs (group () (plus (noneOf "\"'"))) := (absorbs_plusOne (by decide)).group ()
  have hkeeps := (hopening.append_absorbs hvalue).append_keeps keeps_quoteMark blocks_quoteMark
  exact Keeps.ignores ⟨hkeeps.run⟩ ((((((((hblocks.append _).append _).append _).append _).append
    _).append _).append _).append _)

end Visualforce.Page
