import Visualforce.Proofs.Markup.NormalForm
import Visualforce.Proofs.Markup.TagMatch

/-! # Normal form of clear pages

In a clear page every attribute has its value between double quotes and every ampersand begins a
reference, so the page is in normal form as it is.
-/
namespace Visualforce.Markup
open Pattern Cursor

variable {head : Head} {attr : Attribute}

/-- An attribute of a clear tag as one way to write an attribute. -/
def Attribute.loose (attr : Attribute) : LooseAttribute :=
  ⟨[' '], attr.name, some ⟨[], [], some '"', attr.value⟩⟩

def Head.loose (head : Head) (closes : Bool) : LooseTag :=
  ⟨head.tag, head.attributes.map Attribute.loose, [], closes⟩

theorem Attribute.source_loose (attr : Attribute) : attr.loose.source = attr.source := by
  simp [LooseAttribute.source, LooseAttribute.body, Assigned.source, Assigned.raw, loose,
    Attribute.source]

theorem Head.source_loose (head : Head) (closes : Bool) :
    (head.loose closes).source = (Token.opening head closes).source := by
  have hattributes : attributesSource (head.attributes.map Attribute.loose) =
    head.attributeSource := by
    rw [attributesSource, List.flatMap_map, attributeSource]
    exact List.flatMap_congr fun attr _ => attr.source_loose
  rw [LooseTag.source, loose, hattributes]
  rfl

theorem Attribute.isLoose_loose (hname : attr.name ≠ [] ∧ ∀ c ∈ attr.name, isLooseNameChar c)
    (hvalue : '"' ∉ attr.value) :
    attr.loose.IsLoose where
  gap := ⟨List.cons_ne_nil _ _, List.forall_mem_singleton.mpr (by decide)⟩
  name := hname
  assigned := by
    rintro _ ⟨⟩
    refine ⟨by simp, by simp, ?_, by simp⟩
    rintro quote ⟨⟩
    exact ⟨by simp, hvalue⟩

theorem Head.isLoose_loose (htag : isTagName head.tag)
    (hattributes : ∀ attr ∈ head.attributes, attr.loose.IsLoose)
    (closes : Bool) : (head.loose closes).IsLoose where
  name := htag
  attributes := List.forall_mem_map.mpr hattributes
  gap := by simp [loose]
  last := by
    intro _ _ attr hattr assigned hassigned
    obtain ⟨plain, -, rfl⟩ := List.mem_map.mp (List.mem_of_mem_getLast? hattr)
    cases hassigned
    exact Option.some_ne_none _

theorem Head.IsClear.isLoose (h : head.IsClear) (closes : Bool) : (head.loose closes).IsLoose := by
  refine isLoose_loose (isTagName_of_isSpelling h.tag.spelling) (fun attr hattr => ?_) closes
  refine Attribute.isLoose_loose ?_ (h.quote_not_mem hattr)
  have hname := (h.names attr hattr).1.spelling
  exact ⟨hname.ne_nil, hname.forall_mem (fun _ => isLooseNameChar_of_isPartChar) (by decide)⟩

/-- A value without marks is written as it is. -/
theorem quoted_clear (hvalue : IsLegible isClearValueChar attr.value) :
    attr.loose.attribute.quoted escapeOpenings = attr.source := by
  have hquote : attr.value.contains '"' = false := by
    rw [← Bool.not_eq_true, List.contains_iff_mem]
    exact hvalue.not_mem (by decide) (by decide)
  have hopening : '<' ∉ attr.value := hvalue.not_mem (by decide) (by decide)
  have hescape : escapeOpenings attr.value = attr.value := by
    have hsame : ∀ c ∈ attr.value, (if c == '<' then "&lt;".toList else [c]) = [c] := by
      intro c hc
      have hne : c ≠ '<' := by
        rintro rfl
        exact hopening hc
      simp [hne]
    rw [escapeOpenings, List.flatMap_congr hsame, List.flatMap_singleton']
  have hattribute : attr.loose.attribute = attr := rfl
  rw [hattribute, Attribute.quoted, quoteOf, hquote, hescape]
  rfl

theorem normal_clear (h : head.IsClear) (closes : Bool) :
    (head.loose closes).normal escapeOpenings = (Token.opening head closes).source := by
  have hattributes : (head.loose closes).attributes.flatMap (·.attribute.quoted escapeOpenings) =
      head.attributeSource := by
    rw [Head.loose, List.flatMap_map, Head.attributeSource]
    exact List.flatMap_congr fun attr hattr => quoted_clear (h.values attr hattr)
  rw [LooseTag.normal, hattributes]
  simp [Head.loose, Token.source]

/-- A start tag is written again as it stands, and nothing else is touched. -/
theorem yields_startTag {token : Token} (h : token.IsClear) :
    Yields startTagPattern (written (normalStartTag true)) anything token.source token.source := by
  have hahead : ∀ rest, anything rest → anything (token.source ++ rest) := by
    intro rest _
    trivial
  cases token with
  | text content =>
    exact .written_of_quiet hahead fun before rest _ =>
      quiet_of_not_mem begins_startTagPattern (not_mem_text h) before rest
  | closing tag =>
    have hmiss : Misses startTagPattern (.closing tag) := by
      intro more hsource before rest groups goOn
      obtain ⟨-, rfl⟩ := List.cons_eq_cons.mp hsource
      simp [startTagPattern, tagName, char, isTagNameStart]
    exact .written_of_quiet hahead fun before rest _ => hmiss.quiet begins_startTagPattern h before
      rest
  | opening head closes =>
    have hyields := yields_looseTag (Head.IsClear.isLoose h closes)
    rwa [Head.source_loose, normal_clear h closes] at hyields

theorem keepsReferences_source {token : Token} (h : token.IsClear) :
    KeepsReferences token.source := by
  have hname : ∀ {name}, IsUsable name → KeepsReferences name :=
    fun hname => .of_not_mem (hname.spelling.not_mem (by decide) (by decide))
  have hfixed : ∀ {text : Text}, '&' ∉ text → KeepsReferences text := .of_not_mem
  cases token with
  | text content =>
    obtain ⟨text, hspells⟩ : IsLegible isClearChar content := h
    exact hspells.keepsReferences (by decide)
  | closing tag =>
    have hsource : (Token.closing tag).source = ['<', '/'] ++ (tag ++ ['>']) := rfl
    rw [hsource]
    exact (hfixed (by decide)).append ((hname h).append (hfixed (by decide)))
  | opening head closes =>
    have hhead : head.IsClear := h
    have hattributes : KeepsReferences head.attributeSource := by
      refine .flatMap fun attr hattr => ?_
      obtain ⟨text, hspells⟩ := hhead.values attr hattr
      have hsource : attr.source = [' '] ++ (attr.name ++ (['=', '"'] ++ (attr.value ++ ['"']))) :=
        rfl
      rw [hsource]
      exact (hfixed (by decide)).append ((hname (hhead.names attr hattr).1).append
        ((hfixed (by decide)).append
          ((hspells.keepsReferences (by decide)).append (hfixed (by decide)))))
    have hsource : (Token.opening head closes).source =
        ['<'] ++ (head.tag ++ (head.attributeSource ++ tagEnd closes)) := rfl
    rw [hsource]
    exact (hfixed (by decide)).append ((hname hhead.tag).append (hattributes.append
      (hfixed (by cases closes <;> decide))))

theorem normalize_sourceOf {tokens : List Token} (h : ∀ token ∈ tokens, token.IsClear) :
    normalize true (sourceOf tokens) = sourceOf tokens := by
  have htags : startTagPattern.replace (normalStartTag true) (sourceOf tokens) = sourceOf tokens :=
    (Yields.flatMap fun token htoken => yields_startTag (h token htoken)).replace trivial
  have hkeeps : KeepsReferences (sourceOf tokens) :=
    .flatMap fun token htoken => keepsReferences_source (h token htoken)
  rw [normalize, htags, hkeeps.named.replace trivial, hkeeps.loose.replace trivial]

end Visualforce.Markup
