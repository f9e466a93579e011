import Visualforce.Proofs.Markup.PlainToken
import Visualforce.Proofs.Markup.WrittenTree
import Visualforce.Proofs.Page.Facts

/-! # Facts of the tree of a plain page

What is read off the tree of a plain page in document order can be read off its tokens one by one.
Runs of text may join several texts, so the reading of a text has to be that of its pieces.
-/
namespace Visualforce.Page
open Markup
open Expression (IsMarked)

variable {α : Type}

theorem traceNodes_append {ofText : List Text → Text → List α} {ofHead : Head → List Node → List α}
    (path : List Text) (first second : List Node) :
    traceNodes ofText ofHead path (first ++ second) =
      traceNodes ofText ofHead path first ++ traceNodes ofText ofHead path second := by
  induction first with
  | nil => rfl
  | cons node first ih =>
    rw [List.cons_append, traceNodes, ih, traceNodes, List.append_assoc]

/-- What one token shows: a text what it reads, a start tag what its head shows. -/
def shownAt (read : Text → List α) (shown : Head → List α) : Token → List α
  | .text content => read content
  | .opening head _ => shown head
  | .closing _ => []

/-- A reading of texts under which the run of the tree holds what the texts hold that it is made
of. -/
structure IsReading (ofText : List Text → Text → List α) (read : Text → List α) : Prop where
  run : ∀ (shown : Head → List α) path run, IsMarked isPlainChar run →
    traceNodes ofText (fun head _ => shown head) path (treeMaker.text run) = read run
  append : ∀ first second, IsMarked isPlainChar first → IsMarked isPlainChar second →
    read (first ++ second) = read first ++ read second

section Reading
variable {ofText : List Text → Text → List α} {read : Text → List α}

theorem IsReading.traceNodes_all (hread : IsReading ofText read) (shown : Head → List α)
    {forest : Forest Node} (h : IsMarked isPlainChar forest.front) (path : List Text) :
    traceNodes ofText (fun head _ => shown head) path (forest.all treeMaker) =
      read forest.front ++ traceNodes ofText (fun head _ => shown head) path forest.nodes := by
  rw [Forest.all, traceNodes_append, hread.run shown path _ h]

mutual
theorem IsReading.traceNodes_before (hread : IsReading ofText read) (shown : Head → List α) :
    ∀ (part : Written), part.IsOrdinary → ∀ forest : Forest Node,
    IsMarked isPlainChar forest.front → IsMarked isPlainChar (part.before treeMaker forest).front ∧
      ∀ path, traceNodes ofText (fun head _ => shown head) path
          ((part.before treeMaker forest).all treeMaker) =
        part.tokens.flatMap (shownAt read shown) ++
          traceNodes ofText (fun head _ => shown head) path (forest.all treeMaker)
  | .text content, h, forest, hforest => by
    have hcontent : IsMarked isPlainChar content := h
    refine ⟨hcontent.append hforest, fun path => ?_⟩
    rw [Written.before, hread.traceNodes_all shown (hcontent.append hforest),
      hread.traceNodes_all shown hforest, hread.append _ _ hcontent hforest, Written.tokens,
      List.flatMap_singleton, List.append_assoc]
    rfl
  | .closed head, h, forest, hforest => by
    refine ⟨.nil, fun path => ?_⟩
    have hall : ((Written.closed head).before treeMaker forest).all treeMaker =
        .element head [] :: forest.all treeMaker := rfl
    rw [hall, traceNodes, traceNode, traceNodes, Written.tokens, List.flatMap_singleton,
      List.append_nil]
    rfl
  | .element head children, h, forest, hforest => by
    refine ⟨.nil, fun path => ?_⟩
    have hall : ((Written.element head children).before treeMaker forest).all treeMaker =
        .element head ((forestOf treeMaker children).all treeMaker) :: forest.all treeMaker := rfl
    have hchildren := (hread.traceNodes_forestOf shown children h.2).2 (path ++ [head.tag])
    rw [hall, traceNodes, traceNode, hchildren, Written.tokens, List.flatMap_cons,
      List.flatMap_append, List.flatMap_singleton]
    simp [shownAt]

/-- What a forest shows in document order is what its tokens show. -/
theorem IsReading.traceNodes_forestOf (hread : IsReading ofText read) (shown : Head → List α) :
    ∀ (parts : List Written), AreOrdinary parts →
    IsMarked isPlainChar (forestOf treeMaker parts).front ∧
      ∀ path, traceNodes ofText (fun head _ => shown head) path
          ((forestOf treeMaker parts).all treeMaker) =
        (tokensOf parts).flatMap (shownAt read shown)
  | [], _ => ⟨.nil, fun path => rfl⟩
  | part :: rest, h => by
    obtain ⟨hfront, hrest⟩ := hread.traceNodes_forestOf shown rest h.2
    obtain ⟨hfront', hpart⟩ := hread.traceNodes_before shown part h.1 (forestOf treeMaker rest)
      hfront
    refine ⟨hfront', fun path => ?_⟩
    rw [forestOf, hpart, hrest, tokensOf, List.flatMap_append]
end

end Reading

variable {page : Written} {head : Head}

theorem isReading_heads : IsReading (α := Head) (fun _ _ => []) (fun _ => []) where
  run shown path run _ := by
    simp only [treeMaker]
    split_ifs
    · rfl
    · simp [traceNodes, traceNode]
  append _ _ _ _ := rfl

theorem below_ordinaryTree (h : AreOrdinary page.children) :
    (page.tree head).below.map (·.head) = headsOf (tokensOf page.children) := by
  have htrace := (isReading_heads.traceNodes_forestOf (fun head => [head]) page.children h).2 []
  rw [traceNodes_heads _ [] [] 0] at htrace
  rw [headsOf, List.filterMap_eq_flatMap_toList, Element.below, List.map_eq_flatMap]
  refine htrace.trans (List.flatMap_congr fun token _ => ?_)
  cases token <;> rfl

theorem below_tree (h : ArePlain page.children) :
    (page.tree head).below.map (·.head) = headsOf (tokensOf page.children) :=
  below_ordinaryTree h.areOrdinary

theorem isBraceless_of_isPlainChar {c : Char} (h : isPlainChar c) : Expression.isBraceless c := by
  simp only [isPlainChar, Bool.and_eq_true] at h
  rw [Expression.isBraceless, Bool.and_eq_true, bne_iff_ne, bne_iff_ne]
  exact ⟨fun hc => absurd (hc ▸ h.2) (by decide), fun hc => absurd (hc ▸ h.2) (by decide)⟩

theorem isReading_expressions : IsReading (fun _ content => Expression.find content) Expression.find
    where
  run shown path run h := by
    have hmarked := h.mono fun _ => isBraceless_of_isPlainChar
    simp only [treeMaker]
    split_ifs with hblank
    · rw [Text.isBlankText, List.all_eq_true] at hblank
      exact (Expression.find_eq_nil fun c hc => Expression.isBraceless_of_isBlank
        (hblank c hc)).symm
    · simp [traceNodes, traceNode, hmarked.find_trim.2]
  append first second hfirst hsecond :=
    (hfirst.mono fun _ => isBraceless_of_isPlainChar).find_append
      (hsecond.mono fun _ => isBraceless_of_isPlainChar)

/-- The expressions below the root of the tree are those of the tokens one after the other. -/
theorem foundInNodes_tree (h : ArePlain page.children) (path : List Text) :
    foundInNodes path (nodesOf page.children) =
      (tokensOf page.children).flatMap (shownAt Expression.find foundInHead) :=
  (isReading_expressions.traceNodes_forestOf foundInHead page.children h.areOrdinary).2 path

/-- What has no braces adds no expressions to what it stands around. -/
theorem find_inside (first : Text) {middle last : Text}
    (hfirst : ∀ c ∈ first, Expression.isBraceless c)
    (hmiddle : IsMarked Expression.isBraceless middle)
    (hlast : ∀ c ∈ last, Expression.isBraceless c) :
    IsMarked Expression.isBraceless (first ++ (middle ++ last)) ∧
      Expression.find (first ++ (middle ++ last)) = Expression.find middle := by
  have hbegin : IsMarked Expression.isBraceless first := .of_all hfirst
  have hend : IsMarked Expression.isBraceless last := .of_all hlast
  refine ⟨hbegin.append (hmiddle.append hend), ?_⟩
  rw [hbegin.find_append (hmiddle.append hend), hmiddle.find_append hend,
    Expression.find_eq_nil hfirst, Expression.find_eq_nil hlast, List.nil_append, List.append_nil]

theorem isBraceless_of_isNamePart {c : Char} (h : isNamePart c) : Expression.isBraceless c :=
  class_of_isNamePart Expression.isBraceless true (by decide) h

theorem isBraceless_of_isPlainValueChar {c : Char} (h : isPlainValueChar c) :
    Expression.isBraceless c := by
  rw [isPlainValueChar, Bool.or_eq_true, beq_iff_eq] at h
  rcases h with hc | rfl
  · exact isBraceless_of_isPlainChar hc
  · decide

theorem find_attribute {attr : Attribute} (hname : isIdentifier attr.name)
    (hvalue : IsMarked isPlainValueChar attr.value) :
    IsMarked Expression.isBraceless attr.source ∧
      Expression.find attr.source = Expression.find attr.value := by
  have hmarked : IsMarked Expression.isBraceless attr.value :=
    hvalue.mono fun _ => isBraceless_of_isPlainValueChar
  have hsource : attr.source = (' ' :: (attr.name ++ ['=', '"'])) ++ (attr.value ++ ['"']) := by
    simp [Attribute.source]
  rw [hsource]
  refine find_inside _
    (List.forall_mem_cons.mpr ⟨by decide, List.forall_mem_append.mpr ⟨?_, by decide⟩⟩)
    hmarked (by decide)
  exact fun c hc => isBraceless_of_isNamePart (forall_mem_of_isIdentifier hname c hc)

theorem find_token {token : Token} (h : token.IsPlain) :
    IsMarked Expression.isBraceless token.source ∧
      Expression.find token.source = shownAt Expression.find foundInHead token := by
  have htag : ∀ {tag}, IsPlainTag tag → ∀ c ∈ tag, Expression.isBraceless c := fun h =>
    h.isOrdinary.forall_mem (fun _ => isBraceless_of_isNamePart) (by decide)
  cases token with
  | text content => exact ⟨h.mono fun _ => isBraceless_of_isPlainChar, rfl⟩
  | closing tag =>
    have hall : ∀ c ∈ (Token.closing tag).source, Expression.isBraceless c :=
      List.forall_mem_cons.mpr ⟨by decide, List.forall_mem_cons.mpr ⟨by decide,
        List.forall_mem_append.mpr ⟨htag h, by decide⟩⟩⟩
    exact ⟨.of_all hall, Expression.find_eq_nil hall⟩
  | opening head closes =>
    have hhead : head.IsPlain := h
    have hattributes := IsMarked.find_flatMap fun attr hattr =>
      (find_attribute (hhead.names attr hattr).1 (hhead.values attr hattr).2).1
    have hfound : foundInHead head = Expression.find head.attributeSource := by
      rw [Head.attributeSource, hattributes.2, foundInHead]
      exact List.flatMap_congr fun attr hattr =>
        (find_attribute (hhead.names attr hattr).1 (hhead.values attr hattr).2).2.symm
    rw [shownAt, hfound]
    refine find_inside ('<' :: head.tag) (List.forall_mem_cons.mpr ⟨by decide, htag hhead.tag⟩)
      hattributes.1 ?_
    cases closes <;> decide

theorem find_sourceOf {tokens : List Token} (h : ∀ token ∈ tokens, token.IsPlain) :
    Expression.find (sourceOf tokens) = tokens.flatMap (shownAt Expression.find foundInHead) := by
  rw [sourceOf, (IsMarked.find_flatMap fun token htoken => (find_token (h token htoken)).1).2]
  exact List.flatMap_congr fun token htoken => (find_token (h token htoken)).2

end Visualforce.Page
