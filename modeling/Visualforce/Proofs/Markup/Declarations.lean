import Visualforce.Proofs.Markup.Conversion
import Visualforce.Proofs.Markup.TagItem
import Visualforce.Proofs.Pattern.Leads

/-! # Declarations at the root of a page

The declarations that a page shows are found by a pattern, wherever they stand in its text. Those at
the root are found with their namespaces. A page in which the word of a declaration occurs nowhere
else shows no others.
-/
namespace Visualforce.Markup
open Pattern Cursor

variable {groups : List (DeclarationPart × Span)} {before : Option Char} {rest : Text}
variable {goOn : Place DeclarationPart → Option (Place DeclarationPart)}

/-- The qualifier of a declaration, if it is not for the default namespace. -/
def declaredName : Pattern DeclarationPart :=
  char ':' ++ group .name (plus (one isQualifierChar))

theorem run_namespaceDeclaration (here : Place DeclarationPart)
    (goOn : Place DeclarationPart → Option (Place DeclarationPart)) :
    namespaceDeclaration.run here goOn =
      (wordEdge ++ exactly "xmlns".toList ++
        (maybe declaredName ++ assignedValue DeclarationPart.space)).run here goOn := rfl

/-- The qualifier and the namespace of a declaration. -/
def declaredAt (hit : Hit DeclarationPart) : Text × Text := (hit.group .name, hit.group .space)

theorem matchAt_namespaceDeclaration_of_not_isPrefix (before : Option Char) (text : Text)
    (h : ¬ "xmlns".toList <+: text) : namespaceDeclaration.matchAt (between before text) =
    none := by
  rw [matchAt, run_namespaceDeclaration, run_append, run_append, run_wordEdge,
    run_exactly_of_not_isPrefix h, ite_self]
  rfl

theorem matchAt_namespaceDeclaration_of_ne {c : Char} (hc : c ≠ 'x') :
    namespaceDeclaration.matchAt (between before (c :: rest)) = none := by
  refine matchAt_namespaceDeclaration_of_not_isPrefix before _ fun h => hc ?_
  exact (List.cons_prefix_cons.mp h).1.symm

theorem source_declarationOf (qualifier : Text) : (declarationOf qualifier).source =
    ' ' :: ("xmlns".toList ++
      ':' :: (qualifier ++ '=' :: '"' :: ("urn:".toList ++ qualifier ++ ['"']))) := by
  rw [Attribute.source, name_declarationOf, List.append_assoc, List.cons_append]
  rfl

theorem matchAt_declaration {qualifier : Text} (h : isPart qualifier) (rest : Text) : ∃ hit,
    namespaceDeclaration.matchAt
    (between (some ' ') ("xmlns".toList ++ ':' :: (qualifier ++ '=' :: '"' ::
      ("urn:".toList ++ qualifier ++ '"' :: rest)))) = some hit ∧
      hit.stop = between (some '"') rest ∧ declaredAt hit =
        (qualifier, "urn:".toList ++ qualifier) := by
  have hurn : ∀ {c}, c ∉ "urn:".toList → isPartChar c = false → c ∉ "urn:".toList ++ qualifier := by
    intro c hleft hright hmem
    exact (List.mem_append.mp hmem).elim hleft (not_mem_of_isPart h hright)
  let after := '=' :: '"' :: ("urn:".toList ++ qualifier ++ '"' :: rest)
  let start := between (some ' ') ("xmlns".toList ++ ':' :: (qualifier ++ after))
  let nameSpan := (between (some ':') (qualifier ++ after)).spanTo
    (between (behind (some ':') qualifier) after)
  obtain ⟨span, hspace, hrun⟩ := run_assignedValue DeclarationPart.space
    (behind (some ':') qualifier)
    rest [(.name, nameSpan)] (hurn (by decide) (by decide)) (hurn (by decide) (by decide))
  have hedge : (some ' ').any Text.isWord !=
      ("xmlns".toList ++ ':' :: (qualifier ++ after)).head?.any Text.isWord := by
    have hword : "xmlns".toList = 'x' :: "mlns".toList := by decide
    rw [hword, List.cons_append, List.head?_cons]
    decide
  refine ⟨⟨start, between (some '"') rest, [(.space, span), (.name, nameSpan)]⟩, ?_, rfl, ?_⟩
  · rw [matchAt, run_namespaceDeclaration, run_append, run_append, run_wordEdge, if_pos hedge,
      run_exactly_append, run_append, run_maybe, declaredName, run_append, char, run_one_cons,
      if_pos (by decide), run_group, run_plusOne_of_some (ne_nil_of_isPart h) ?_ ?_ hrun]
    · rfl
    · exact fun c hc => isQualifierChar_of_isPartChar (forall_mem_of_isPart h c hc)
    · rintro c ⟨⟩
      decide
  · exact Prod.ext (spanTo_text _ _ qualifier _) hspace

theorem yields_declaration {qualifier : Text} (h : isPart qualifier) {ahead : Text → Prop}
    (hahead : ∀ rest, ahead rest → ahead ((declarationOf qualifier).source ++ rest)) :
    Yields namespaceDeclaration (seen declaredAt) ahead (declarationOf qualifier).source
      [(qualifier, "urn:".toList ++ qualifier)] := by
  refine ⟨fun before rest _ => ?_, hahead⟩
  obtain ⟨hit, hmatch, hstop, hview⟩ := matchAt_declaration h rest
  let body := "xmlns".toList ++
    ':' :: (qualifier ++ '=' :: '"' :: ("urn:".toList ++ qualifier ++ '"' :: rest))
  have hsource : (declarationOf qualifier).source ++ rest = ' ' :: body := by
    simp [source_declarationOf, body]
  have hlt : hit.stop.left < (between (some ' ') body).left := by
    rw [hstop]
    simp only [body, between_left, List.length_append, List.length_cons]
    omega
  have hspace : namespaceDeclaration.matchAt (between before (' ' :: body)) = none :=
    matchAt_namespaceDeclaration_of_ne (by decide)
  have hsingle := Scans.single declaredAt hmatch hlt
  rw [hstop, hview] at hsingle
  rw [hsource]
  exact ⟨some '"', .skip rfl hspace hsingle⟩

/-- Whatever is declared after the name of its root tag, a page shows these declarations and no
others. -/
def DeclaresAtRoot (tag left : Text) : Prop :=
  ∀ qualifiers : List Text, (∀ qualifier ∈ qualifiers, IsQualifier qualifier) →
    declarations ('<' ::
      (tag ++ (qualifiers.flatMap (fun qualifier => (declarationOf qualifier).source) ++
      left))) = declaredBy qualifiers

section
variable {tag left : Text} {ahead : Text → Prop} {qualifiers : List Text}

theorem yields_root (hahead : ∀ qualifier rest, ahead rest →
    ahead ((declarationOf qualifier).source ++ rest))
    (htag : Yields namespaceDeclaration (seen declaredAt) ahead ('<' :: tag) [])
    (hqualifiers : ∀ qualifier ∈ qualifiers, IsQualifier qualifier) :
    Yields namespaceDeclaration (seen declaredAt) ahead
      ('<' :: tag ++ qualifiers.flatMap fun qualifier => (declarationOf qualifier).source)
      (declaredBy qualifiers) := by
  have hdeclared := Yields.flatMap fun qualifier hmem =>
    yields_declaration (hqualifiers qualifier hmem).part (hahead qualifier)
  rw [declaredBy, List.map_eq_flatMap]
  exact htag.append hdeclared

theorem declaresAtRoot_of_yields (ahead : Text → Prop) (hend : ahead [])
    (hahead : ∀ qualifier rest, ahead rest → ahead ((declarationOf qualifier).source ++ rest))
    (htag : Yields namespaceDeclaration (seen declaredAt) ahead ('<' :: tag) [])
    (hleft : Yields namespaceDeclaration (seen declaredAt) ahead left []) :
    DeclaresAtRoot tag left := by
  intro qualifiers hqualifiers
  have hhits := ((yields_root hahead htag hqualifiers).append hleft).hits hend
  rw [List.append_nil, List.append_assoc] at hhits
  exact hhits

/-- A text that does not go on with the rest of the word of a declaration. -/
def StopsWord (text : Text) : Prop := ∀ c ∈ text.head?, c ∉ "xmlns".toList.tail

theorem EndsName.stopsWord (h : EndsName left) : StopsWord left := by
  obtain ⟨c, more, rfl, hc⟩ := h
  rintro d ⟨⟩
  exact (by decide : ∀ c ∈ [' ', '/', '>'], c ∉ "xmlns".toList.tail) c hc

theorem stopsWord_declarationOf (qualifier rest : Text) :
    StopsWord ((declarationOf qualifier).source ++ rest) := by
  rw [source_declarationOf]
  rintro c ⟨⟩
  decide

theorem yields_of_not_isInfix {passed : Text} (h : ¬ "xmlns".toList <:+: passed)
    (hstops : ∀ rest, StopsWord (passed ++ rest)) :
    Yields namespaceDeclaration (seen declaredAt) StopsWord passed [] :=
  .of_quiet (fun rest _ => hstops rest) fun _ _ hrest =>
    quiet_of_not_isInfix matchAt_namespaceDeclaration_of_not_isPrefix h hrest

theorem yields_rootTag (htag : ¬ "xmlns".toList <:+: '<' :: tag) :
    Yields namespaceDeclaration (seen declaredAt) StopsWord ('<' :: tag) [] := by
  refine yields_of_not_isInfix htag ?_
  rintro rest c ⟨⟩
  decide

/-- A page that holds the word of a declaration nowhere else shows what is declared at its root. -/
theorem declaresAtRoot_of_not_isInfix (htag : ¬ "xmlns".toList <:+: '<' :: tag)
    (hleft : ¬ "xmlns".toList <:+: left) (hends : EndsName left) : DeclaresAtRoot tag left := by
  refine declaresAtRoot_of_yields StopsWord (by simp [StopsWord])
    (fun qualifier rest _ => stopsWord_declarationOf qualifier rest) (yields_rootTag htag)
    (yields_of_not_isInfix hleft fun rest => ?_)
  obtain ⟨c, more, rfl, hc⟩ := hends
  exact EndsName.stopsWord ⟨c, more ++ rest, rfl, hc⟩

/-- Behind what is declared at its root, a page shows what looks like a declaration elsewhere in
it. -/
theorem declarations_root (htag : ¬ "xmlns".toList <:+: '<' :: tag) (hstops : StopsWord left)
    (hqualifiers : ∀ qualifier ∈ qualifiers, IsQualifier qualifier) : ∃ others :
    List (Hit DeclarationPart),
      declarations ('<' ::
      (tag ++ (qualifiers.flatMap (fun qualifier => (declarationOf qualifier).source) ++
        left))) = declaredBy qualifiers ++ others.map declaredAt ∧ ∀ hit ∈ others, ∃ there : Cursor,
          there.rest <:+ left ∧ namespaceDeclaration.matchAt there = some hit := by
  have hroot := yields_root (fun qualifier rest _ => stopsWord_declarationOf qualifier rest)
    (yields_rootTag htag) hqualifiers
  obtain ⟨after, hscan⟩ := hroot.scans none left hstops
  rw [List.append_assoc] at hscan
  exact hscan.hits_behind

end

end Visualforce.Markup
