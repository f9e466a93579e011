import Visualforce.Proofs.Markup.Assignment
import Visualforce.Proofs.Markup.ClearBuild

/-! # Building the trees of ordinary pages

An ordinary page declares no qualifiers, because an equals sign stands after the names of its
attributes only. So it is built into the tree that it was written from, with trimmed values.
-/
namespace Visualforce.Markup
open Pattern Cursor
open Expression (IsMarked)

variable {page : Written} {head : Head} {tokens : List Token}

theorem isAssigner_declared : IsAssigner (maybe declaredName ++ assignedValue DeclarationPart.space)
    where
  equals before text groups goOn h := by
    rw [run_append, run_maybe, (isAssigner_assignedValue _).equals _ _ _ _ h, Option.or_none,
      declaredName, run_append]
    cases text with
    | nil => rfl
    | cons c text =>
      rw [char, run_one_cons]
      split_ifs with hc
      · have hafter : afterName (c :: text) = afterName text := by
          rw [beq_iff_eq.mp hc]
          rfl
        apply run_plusOne_none text
        intro passed rest heq hpassed
        refine (isAssigner_assignedValue _).equals _ _ _ _ ?_
        rw [hafter, heq, afterName_append fun d hd => isTagNameChar_of_isQualifierChar
          (hpassed d hd)] at h
        exact h
      · rfl
  inside before c rest groups goOn hc := by
    have hne : c ≠ ':' := by
      rintro rfl
      exact absurd hc (by decide)
    rw [run_append, run_maybe, (isAssigner_assignedValue _).inside _ _ _ _ _ hc, Option.or_none,
      declaredName, run_append, char, run_one_cons, if_neg (by simpa using hne)]

theorem isAssignment_namespaceDeclaration : IsAssignment namespaceDeclaration :=
  isAssignment_of_word (by decide) isAssigner_declared run_namespaceDeclaration

theorem yields_undeclared {attr : Attribute} (hname : isWordName attr.name)
    (hne : attr.name ≠ "xmlns".toList) (hvalue : IsMarked isPlainValueChar attr.value) :
    Yields namespaceDeclaration (seen declaredAt) AvoidsEquals attr.source [] := by
  refine isAssignment_namespaceDeclaration.yields_of_miss hname
    (hvalue.not_mem (by decide) (by decide)) fun rest => ?_
  refine matchAt_word_of_ne (by decide) isAssigner_declared run_namespaceDeclaration hname hne ?_
  rintro c ⟨⟩
  decide

theorem yields_ordinaryToken {token : Token} (h : token.IsOrdinary) :
    Yields namespaceDeclaration (seen declaredAt) AvoidsEquals token.source [] := by
  have hyields := isAssignment_namespaceDeclaration.yields_token h fun _ => yields_undeclared
  have hnone : IsAssignment.assignedAt (fun _ => ([] : List (Text × Text))) token = [] := by
    cases token <;> simp [IsAssignment.assignedAt]
  rwa [hnone] at hyields

theorem yields_ordinaryTokens (h : ∀ token ∈ tokens, token.IsOrdinary) :
    Yields namespaceDeclaration (seen declaredAt) AvoidsEquals (sourceOf tokens) [] :=
  .flatMap_nil fun token htoken => yields_ordinaryToken (h token htoken)

/-- The root tag of an ordinary page declares what is put into it and nothing else. -/
theorem yields_declaring (closes : Bool) (hhead : head.IsOrdinary) {qualifiers : List Text}
    (hqualifiers : ∀ qualifier ∈ qualifiers, IsQualifier qualifier) :
    Yields namespaceDeclaration (seen declaredAt) AvoidsEquals
      (Token.opening (head.declaring qualifiers) closes).source (declaredBy qualifiers) := by
  have hassignment := isAssignment_namespaceDeclaration
  have htag : Yields namespaceDeclaration (seen declaredAt) AvoidsEquals ('<' :: head.tag) [] :=
    hassignment.yields_of_not_mem (by simpa using hhead.tag.not_mem (by decide) (by decide))
  have hattributes : Yields namespaceDeclaration (seen declaredAt) AvoidsEquals head.attributeSource
      [] :=
    .flatMap_nil fun attr hattr => yields_undeclared (hhead.names attr hattr).1
      (hhead.names attr hattr).2 (hhead.values attr hattr)
  have hend : Yields namespaceDeclaration (seen declaredAt) AvoidsEquals (tagEnd closes) [] :=
    hassignment.yields_of_not_mem (by cases closes <;> simp [tagEnd, slash])
  have hroot := yields_root (fun qualifier rest _ => Attribute.avoidsEquals_source
    ⟨'x', "mlns".toList ++ ':' :: qualifier, name_declarationOf qualifier, by decide⟩ rest)
    htag hqualifiers
  have hyields := hroot.append (hattributes.append hend)
  rwa [List.append_nil, List.append_nil, ← source_declaring] at hyields

theorem declaresAtRoot_of_isOrdinary (closes : Bool) (hhead : head.IsOrdinary)
    (h : ∀ token ∈ tokens, token.IsOrdinary) :
    DeclaresAtRoot head.tag (afterRoot head closes tokens) := by
  intro qualifiers hqualifiers
  have hyields := (yields_declaring closes hhead hqualifiers).append (yields_ordinaryTokens h)
  rw [List.append_nil] at hyields
  have hsource : sourceOf (.opening (head.declaring qualifiers) closes :: tokens) =
      '<' :: (head.tag ++ afterRoot (head.declaring qualifiers) closes tokens) :=
    sourceOf_root _ _ _
  rw [← afterRoot_declaring, ← hsource]
  exact hyields.hits avoidsEquals_nil

/-- An ordinary page is built into the tree that it was written from, with trimmed values. -/
theorem build_ordinary (h : page.IsOrdinaryPage) (hhead : page.head? = some head) :
    build Config.standard page.source = .ok (page.trimmed.tree head.trimmed) := by
  obtain ⟨root, hroot, htag⟩ := h.root
  obtain rfl : root = head := Option.some.inj (hroot.symm.trans hhead)
  have hall : ∀ token ∈ page.tokens, token.IsOrdinary := h.parts.tokens
  have hsame : ∀ tokens : List Token, tokens.map (Token.encoded id) = tokens := fun tokens =>
    (List.map_congr_left fun token _ => token.encoded_id).trans (List.map_id tokens)
  have hsource : page.source = Xml.encodedSource id page.tokens := by
    rw [Xml.encodedSource, hsame, Written.source]
  rw [hsource]
  refine build_readBack hhead (fun token htoken => (hall token htoken).isReadBack)
    (wrapOpaque_readBack fun token htoken =>
      ⟨(hall token htoken).isReadBack, (hall token htoken).isTransparent⟩)
    (by rw [htag]; decide) h.depth fun closes tokens htokens => ?_
  rw [htokens, List.forall_mem_cons] at hall
  have hencoded : root.encoded id = root := by simp [Head.encoded, Attribute.encoded]
  rw [hsame, hencoded]
  exact declaresAtRoot_of_isOrdinary closes hall.1 hall.2

theorem Head.IsOrdinary.trimmed (h : head.IsOrdinary) : head.trimmed.IsOrdinary where
  tag := h.tag
  notOpaque := h.notOpaque
  names := List.forall_mem_map.mpr h.names
  distinct := by
    have hnames : head.trimmed.attributes.map (·.name) = head.attributes.map (·.name) :=
      List.map_map
    rw [hnames]
    exact h.distinct
  values := List.forall_mem_map.mpr fun attr hattr => (h.values attr hattr).trim

mutual
theorem Written.IsOrdinary.trimmed : ∀ {part : Written}, part.IsOrdinary → part.trimmed.IsOrdinary
  | .text _, h => h
  | .closed _, h => Head.IsOrdinary.trimmed h
  | .element _ _, h => ⟨h.1.trimmed, AreOrdinary.trimmed h.2⟩

theorem AreOrdinary.trimmed : ∀ {parts : List Written}, AreOrdinary parts →
    AreOrdinary (trimmedAll parts)
  | [], _ => trivial
  | _ :: _, h => ⟨Written.IsOrdinary.trimmed h.1, AreOrdinary.trimmed h.2⟩
end

end Visualforce.Markup
