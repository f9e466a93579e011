import Visualforce.Markup.Build
import Visualforce.Proofs.Markup.Qualifiers
import Visualforce.Proofs.Markup.Sections
import Visualforce.Proofs.Text.Trim

/-! # Preparing clear pages

Preparation leaves a clear page as it is, except that its root declares the qualifiers in use.
-/
namespace Visualforce.Markup
open Pattern Cursor

variable {head : Head} {closes : Bool} {tokens : List Token} {tag left : Text}

theorem prologOrTag_eq : prologOrTag = alt commentPattern (alt (literal "<?" ++ starLazy anyChar ++
    literal "?>")
      (alt (literal "<!" ++ star (noneOf ">") ++ char '>') (group () (char '<' ++ tagName)))) :=
  rfl

/-- Of what a prolog is searched for, only the opening of a tag is captured. -/
theorem matchAt_prologOrTag_tag (htag : IsSpelling tag)
    (hleft : ∀ c ∈ left.head?, isTagNameChar c = false) (before : Option Char) : ∃ hit,
    prologOrTag.matchAt (between before ('<' :: (tag ++ left))) = some hit ∧
      hit.stop = between (behind (some '<') tag) left ∧ (hit.group? ()).isSome := by
  let start := between before ('<' :: (tag ++ left))
  let stop := between (behind (some '<') tag) left
  have hrun : prologOrTag.run ⟨start, []⟩ some = some ⟨stop, [((), start.spanTo stop)]⟩ := by
    obtain ⟨c, more, hcons, hc, -⟩ := htag.exists_cons
    have hfirst : ∀ {text : String} {d : Char} {passed : Text}, text.toList = '<' :: d :: passed →
        isTagNameStart d = false → ∀ goOn, (literal text : Pattern Unit).run
          ⟨between before ('<' :: (tag ++ left)), []⟩ goOn = none := by
      intro text d passed htext hd goOn
      rw [literal, htext, run_exactly_of_not_isPrefix]
      rw [hcons, List.cons_append, List.cons_prefix_cons, List.cons_prefix_cons]
      rintro ⟨-, rfl, -⟩
      rw [hc] at hd
      cases hd
    rw [prologOrTag_eq, run_alt, run_alt, run_alt, commentPattern, run_append, run_append,
      hfirst rfl (by decide), run_append, run_append, hfirst rfl (by decide), run_append,
      run_append, hfirst rfl (by decide), run_group, run_append, char, run_one_cons,
      if_pos (by decide)]
    exact run_tagName (isTagName_of_isSpelling htag) hleft rfl
  exact ⟨⟨start, stop, _⟩, by rw [matchAt, hrun]; rfl, rfl, rfl⟩

/-- Where a page begins with its root tag, declarations go after the name of that. -/
theorem rootTagEnd?_tag (htag : IsSpelling tag)
    (hleft : ∀ c ∈ left.head?, isTagNameChar c = false) :
    rootTagEnd? ('<' :: (tag ++ left)) = some (between (behind (some '<') tag) left) := by
  obtain ⟨hit, hmatch, hstop, hcaptured⟩ := matchAt_prologOrTag_tag htag hleft none
  obtain ⟨more, hhits⟩ := hits_of_matchAt hmatch (by
    simp only [hstop, between_left, List.length_cons, List.length_append]
    omega)
  rw [rootTagEnd?, hhits, List.find?_cons, hcaptured, ← hstop]
  rfl

theorem writeDeclaration_eq (qualifier : Text) :
    writeDeclaration qualifier = (declarationOf qualifier).source := by
  have hname : " xmlns:".toList = ' ' :: "xmlns:".toList := by decide
  have hspace : "=\"urn:".toList = '=' :: '"' :: "urn:".toList := by decide
  have hassoc : ∀ name space : Text, ' ' :: name ++ qualifier ++ '=' :: '"' :: space ++ qualifier ++
    ['"'] =
      ' ' :: (name ++ qualifier ++ '=' :: '"' :: (space ++ qualifier ++ ['"'])) := by
    simp
  calc writeDeclaration qualifier =
      " xmlns:".toList ++ qualifier ++ "=\"urn:".toList ++ qualifier ++ ['"'] := rfl
    _ = ' ' :: "xmlns:".toList ++ qualifier ++ '=' :: '"' :: "urn:".toList ++ qualifier ++
      ['"'] := by
      rw [hname, hspace]
    _ = (declarationOf qualifier).source := hassoc _ _

/-- Declarations are put where the name of the root tag ends. -/
theorem declareQualifiers_append {first : Text} {before : Option Char}
    (h : rootTagEnd? (first ++ left) = some (between before left)) :
    declareQualifiers (first ++ left) = first ++ ((undeclared (first ++ left)).flatMap
      (fun qualifier => (declarationOf qualifier).source) ++ left) := by
  rw [declareQualifiers]
  generalize undeclared (first ++ left) = qualifiers
  simp only [h]
  split_ifs with hempty
  · rw [List.isEmpty_iff.mp hempty]
    rfl
  · have htake : (first ++ left).take ((first ++ left).length - left.length) = first := by
      rw [List.length_append, Nat.add_sub_cancel, List.take_left]
    have hwritten : qualifiers.flatMap writeDeclaration =
        qualifiers.flatMap fun qualifier => (declarationOf qualifier).source :=
      List.flatMap_congr fun qualifier _ => writeDeclaration_eq qualifier
    rw [between_left, between_rest, htake, hwritten, List.append_assoc]

theorem declareQualifiers_tag (htag : IsSpelling tag)
    (hleft : ∀ c ∈ left.head?, isTagNameChar c = false) :
    declareQualifiers ('<' :: (tag ++ left)) =
      '<' :: (tag ++ ((undeclared ('<' :: (tag ++ left))).flatMap
        (fun qualifier => (declarationOf qualifier).source) ++ left)) := by
  have hend := rootTagEnd?_tag htag hleft
  rw [← List.cons_append] at hend
  rw [← List.cons_append, declareQualifiers_append hend]
  rfl

/-- What follows the name of a root tag. -/
def afterRoot (head : Head) (closes : Bool) (tokens : List Token) : Text :=
  head.attributeSource ++ (tagEnd closes ++ sourceOf tokens)

theorem sourceOf_root (head : Head) (closes : Bool) (tokens : List Token) :
    sourceOf (.opening head closes :: tokens) =
      '<' :: (head.tag ++ afterRoot head closes tokens) := by
  simp [sourceOf, Token.source, afterRoot]

theorem endsName_afterRoot (head : Head) (closes : Bool) (tokens : List Token) :
    EndsName (afterRoot head closes tokens) :=
  endsName_attributeSource head (endsName_tagEnd closes (sourceOf tokens))

theorem afterRoot_declaring (qualifiers : List Text) (head : Head) (closes : Bool)
    (tokens : List Token) :
    afterRoot (head.declaring qualifiers) closes tokens =
      qualifiers.flatMap (fun qualifier => (declarationOf qualifier).source) ++
        afterRoot head closes tokens := by
  simp [afterRoot, Head.declaring, Head.attributeSource, List.flatMap_map]

theorem declareQualifiers_sourceOf (h : ∀ token ∈ Token.opening head closes :: tokens,
    token.IsClear)
    (hdeclares : DeclaresAtRoot head.tag (afterRoot head closes tokens)) :
    declareQualifiers (sourceOf (.opening head closes :: tokens)) =
      sourceOf (.opening (head.declaring (qualifiersOf (.opening head closes :: tokens))) closes ::
        tokens) := by
  have hhead : head.IsClear := h _ List.mem_cons_self
  have hnone : declarations (sourceOf (.opening head closes :: tokens)) = [] := by
    rw [sourceOf_root]
    exact hdeclares [] (by simp)
  have hundeclared := undeclared_sourceOf h hnone
  rw [sourceOf_root] at hundeclared
  rw [sourceOf_root, declareQualifiers_tag hhead.tag.spelling
    ((endsName_afterRoot head closes tokens).head? (by decide)), hundeclared, sourceOf_root,
      afterRoot_declaring]
  rfl

theorem changeBetween_of_quiet {pattern : Pattern Unit} {text : Text} (change : Text → Text)
    (h : Quiet pattern none text []) : changeBetween pattern change text = change text := by
  rw [changeBetween, pieces_of_quiet h, foldr_plain fun _ _ _ => rfl, List.append_nil]
  exact List.append_nil _

theorem normalizeOutsideSections_sourceOf (h : ∀ token ∈ tokens, token.IsClear) :
    normalizeOutsideSections true (sourceOf tokens) = sourceOf tokens := by
  have hquiet : Quiet sectionPattern none (sourceOf tokens) [] :=
    quiet_sourceOf begins_sectionPattern fun token htoken =>
      ⟨h token htoken, misses_sectionPattern (h token htoken)⟩
  rw [normalizeOutsideSections, changeBetween_of_quiet _ hquiet, normalize_sourceOf h]

/-- A text that begins and ends with the brackets of tags has nothing around it to be left out. -/
theorem trim_withoutMarks {text : Text} (hfirst : text.head? = some '<')
    (hlast : text.getLast? = some '>') :
    Text.trim (withoutMarks text) = text := by
  cases text with
  | nil => cases hfirst
  | cons c text =>
    cases hfirst
    have hmarks : withoutMarks ('<' :: text) = '<' :: text := rfl
    rw [hmarks]
    refine Text.isTrimmed_of_ends ?_ ?_
    · rintro c ⟨⟩
      decide
    · rw [hlast]
      rintro c ⟨⟩
      decide

/-- Where nothing is to be wrapped, preparation only declares qualifiers. -/
theorem prepare_sourceOf (h : ∀ token ∈ Token.opening head closes :: tokens, token.IsClear)
    (hwrap : wrapOpaque Config.standard.opaqueTags (sourceOf (.opening head closes :: tokens)) =
      sourceOf (.opening head closes :: tokens))
    (hdeclares : DeclaresAtRoot head.tag (afterRoot head closes tokens))
    (hlast : (sourceOf (.opening head closes :: tokens)).getLast? = some '>') :
    prepare Config.standard (sourceOf (.opening head closes :: tokens)) =
      sourceOf (.opening (head.declaring (qualifiersOf (.opening head closes :: tokens))) closes ::
        tokens) := by
  have hboolean : Config.standard.allowBooleanAttributes = true := rfl
  rw [prepare, trim_withoutMarks rfl hlast, hwrap, hboolean,
    normalizeOutsideSections_sourceOf h, declareQualifiers_sourceOf h hdeclares]

end Visualforce.Markup
