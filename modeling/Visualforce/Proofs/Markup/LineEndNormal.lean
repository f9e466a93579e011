import Visualforce.Proofs.Data.Writing
import Visualforce.Proofs.Markup.LineEndPatterns
import Visualforce.Proofs.Markup.Sections

/-! # Normal markup and line ends

Normal markup with its line ends unified is the normal form of the markup with its line ends
unified.
-/
namespace Visualforce.Markup
open Pattern Digest

variable {text name value raw : Text} {here : Cursor}

theorem escapeOpenings_unifyLineEnds (value : Text) :
    escapeOpenings (unifyLineEnds value) = unifyLineEnds (escapeOpenings value) := by
  have hcons (c : Char) (rest : Text) : escapeOpenings (c :: rest) =
      (if c == '<' then "&lt;".toList else [c]) ++ escapeOpenings rest := List.flatMap_cons
  have hhead (rest : Text) (h : rest.head? ≠ some '\n') :
      (escapeOpenings rest).head? ≠ some '\n' := by
    cases rest with
    | nil => exact h
    | cons c rest =>
      rw [hcons]
      split_ifs
      · rw [List.head?_append_of_ne_nil _ (by decide)]
        decide
      · exact h
  induction value using lineEnd_induction with
  | nil => rfl
  | pair rest ih =>
    rw [unifyLineEnds_return_feed, hcons, hcons, hcons, ih]
    exact unifyLineEnds_return_feed.symm
  | single rest hrest ih =>
    rw [unifyLineEnds_return hrest, hcons, hcons, ih]
    exact (unifyLineEnds_return (hhead rest hrest)).symm
  | feed rest ih =>
    rw [unifyLineEnds_feed, hcons, hcons, ih]
    exact unifyLineEnds_feed.symm
  | other c rest hc ih =>
    rw [unifyLineEnds_cons hc, hcons, hcons, ih, unifyLineEnds_append_left]
    split_ifs
    · decide
    · exact List.forall_mem_singleton.mpr hc

theorem writeAttribute_unifyLineEnds (hname : ∀ c ∈ name, isLineEnd c = false) (value : Text) :
    writeAttribute name (unifyLineEnds value) = unifyLineEnds (writeAttribute name value) := by
  have hquote : isLineEnd (if value.contains '"' then '\'' else '"') = false := by
    split_ifs <;> decide
  have hlast {quote : Char} (hc : isLineEnd quote = false) (text : Text) :
      unifyLineEnds (text ++ [quote]) = unifyLineEnds text ++ [quote] := by
    rw [unifyLineEnds_append_of_head, unifyLineEnds_cons hc, unifyLineEnds]
    rintro ⟨⟩
    cases hc
  have hcons (text : Text) : unifyLineEnds (' ' :: text) = ' ' :: unifyLineEnds text :=
    unifyLineEnds_cons (by decide)
  have hsign (text : Text) : unifyLineEnds ('=' :: text) = '=' :: unifyLineEnds text :=
    unifyLineEnds_cons (by decide)
  simp only [writeAttribute, contains_unifyLineEnds (c := '"') (by decide),
    escapeOpenings_unifyLineEnds, List.cons_append, List.append_assoc]
  rw [hcons, unifyLineEnds_append_left hname, hsign, unifyLineEnds_cons hquote, hlast hquote]

/-- A value as it is written behind an equals sign. -/
inductive IsRawValue : Text → Prop where
  | quoted {quote : Char} (inner : Text) (hquote : quote = '"' ∨ quote = '\'') :
      IsRawValue (quote :: (inner ++ [quote]))
  | plain {raw : Text} (h : ∀ c ∈ raw, isLooseValueChar c) : IsRawValue raw

theorem bareValue_unifyLineEnds (h : IsRawValue raw) :
    bareValue (unifyLineEnds raw) = unifyLineEnds (bareValue raw) := by
  cases h with
  | @quoted quote inner hquote =>
    have hc : isLineEnd quote = false := by
      rcases hquote with rfl | rfl <;> decide
    have hbare (inner : Text) : bareValue (quote :: (inner ++ [quote])) = inner := by
      rw [bareValue, if_pos (by rcases hquote with rfl | rfl <;> rfl), List.drop_one,
        List.tail_cons, List.dropLast_concat]
    rw [unifyLineEnds_cons hc, unifyLineEnds_append_of_head, unifyLineEnds_cons hc, unifyLineEnds,
      hbare, hbare]
    rintro ⟨⟩
    cases hc
  | plain h =>
    have hraw : ∀ c ∈ raw, isLineEnd c = false :=
      fun c hc => isLineEnd_eq_false (by decide) (by decide) (h c hc)
    have hbare : bareValue raw = raw := by
      rw [bareValue, if_neg]
      cases raw with
      | nil => exact Bool.false_ne_true
      | cons c raw =>
        rw [List.head?_cons, Option.any_some, Bool.or_eq_true, beq_iff_eq, beq_iff_eq]
        rintro (rfl | rfl)
        · exact absurd (h '"' List.mem_cons_self) (by decide)
        · exact absurd (h '\'' List.mem_cons_self) (by decide)
    rw [unifyLineEnds_of_forall hraw, hbare, unifyLineEnds_of_forall hraw]

theorem IsRawValue.of_leads {κ : Type} {here there : Place κ} (h : Leads looseValue here there) :
    IsRawValue (here.cursor.spanTo there.cursor).text := by
  have hquoted {quote : Char} (hquote : quote = '"' ∨ quote = '\'')
      (h : Leads (quotedWith quote) here there) :
      IsRawValue (here.cursor.spanTo there.cursor).text := by
    obtain ⟨last, hfront, hlast⟩ := leads_append.mp h
    obtain ⟨first, hopening, hinner⟩ := leads_append.mp hfront
    obtain ⟨inner, hrest, -⟩ := hinner.manyOne_inv
    have hwhole : here.cursor.rest = quote :: (inner ++ [quote]) ++ there.cursor.rest := by
      rw [hopening.char_inv.1, hrest, hlast.char_inv.1]
      simp
    rw [Cursor.spanTo_text_of_rest hwhole]
    exact .quoted inner hquote
  obtain ⟨pattern, hpattern, hleads⟩ := Leads.firstOf_inv h
  simp only [List.mem_cons, List.not_mem_nil, or_false] at hpattern
  rcases hpattern with rfl | rfl | rfl
  · exact hquoted (.inl rfl) hleads
  · exact hquoted (.inr rfl) hleads
  · exact .plain ((PassesOnly.one fun _ hc => hc).plus.forall_mem_spanTo hleads)

/-- What the groups of a tag hold. -/
def IsTagPart : TagPart → Text → Prop
  | .tag, text | .name, text => ∀ c ∈ text, isLineEnd c = false
  | .closing, text => ∀ c ∈ text, c = '/'
  | .attributes, _ => True
  | .value, text => IsRawValue text

theorem captures_looseAttribute : Captures IsTagPart looseAttribute := by
  have hname : PassesOnly isLooseNameChar (plus (one isLooseNameChar) : Pattern TagPart) :=
    (PassesOnly.one fun _ hc => hc).plus
  refine ⟨⟨⟨trivial, trivial⟩, fun _ _ hleads c hc => ?_⟩,
    ⟨Groupless.captures (by decide), Groupless.captures (by decide), fun _ _ => .of_leads⟩,
    trivial⟩
  exact isLineEnd_eq_false (by decide) (by decide)
    (hname.forall_mem_spanTo hleads c hc)

theorem captures_startTagPattern : Captures IsTagPart startTagPattern := by
  have htag : PassesOnly isTagNameChar (tagName : Pattern TagPart) :=
    (PassesOnly.one fun c hc => class_of_isTagNameStart isTagNameChar true (by decide) hc).append
      (PassesOnly.one fun _ hc => hc).star
  have hclosing : PassesOnly (· == '/') (maybe (char '/') : Pattern TagPart) :=
    (PassesOnly.one fun _ hc => hc).maybe
  refine ⟨⟨⟨⟨⟨trivial, ⟨trivial, trivial⟩, fun _ _ hleads c hc => ?_⟩,
    ⟨⟨trivial, trivial⟩, captures_looseAttribute⟩, fun _ _ _ => trivial⟩, trivial⟩,
    ⟨trivial, trivial⟩, fun _ _ hleads c hc => ?_⟩, trivial⟩
  · exact isLineEnd_eq_false (by decide) (by decide)
      (htag.forall_mem_spanTo hleads c hc)
  · exact beq_iff_eq.mp (hclosing.forall_mem_spanTo hleads c hc)

theorem isClosed_writeAttribute (name value : Text) : IsClosed (writeAttribute name value) := by
  refine ⟨by simp [writeAttribute], by simp [writeAttribute], ?_⟩
  rw [writeAttribute, List.getLast?_concat]
  split_ifs <;> decide

theorem normalAttribute?_unified {hit hit' : Hit TagPart} (allow : Bool)
    (hmatch : looseAttribute.matchAt here = some hit) (hhit : UnifiedHit text hit hit') :
    normalAttribute? allow hit' = (normalAttribute? allow hit).map unifyLineEnds := by
  have hname : ∀ c ∈ hit.group .name, isLineEnd c = false := by
    rcases captures_looseAttribute.group hmatch .name with hnone | hname
    · rw [hnone]
      exact List.forall_mem_nil _
    · exact hname
  rw [normalAttribute?, normalAttribute?, hhit.group?, hhit.group, unifyLineEnds_of_forall hname]
  cases hvalue : hit.group? .value with
  | none =>
    cases allow with
    | true =>
      have htrue := writeAttribute_unifyLineEnds hname "true".toList
      rw [unifyLineEnds_of_forall (by decide)] at htrue
      exact congrArg some htrue
    | false => rfl
  | some raw =>
    have hraw : IsRawValue raw := captures_looseAttribute.group? hmatch hvalue
    simp only [Option.map_some]
    rw [bareValue_unifyLineEnds hraw, writeAttribute_unifyLineEnds hname]

theorem isClosed_normalAttribute {hit : Hit TagPart} {allow : Bool} {written : Text}
    (h : normalAttribute? allow hit = some written) : IsClosed written := by
  rw [normalAttribute?] at h
  split at h
  · obtain rfl := Option.some.inj h
    exact isClosed_writeAttribute _ _
  · split_ifs at h
    obtain rfl := Option.some.inj h
    exact isClosed_writeAttribute _ _

theorem mapM_normalAttribute_unified (allow : Bool) {hits hits' : List (Hit TagPart)}
    (h : List.Forall₂ (fun hit hit' => looseAttribute.matchAt hit.start = some hit ∧
      UnifiedHit text hit hit') hits hits') :
    hits'.mapM (normalAttribute? allow) =
      (hits.mapM (normalAttribute? allow)).map (List.map unifyLineEnds) ∧
    ∀ parts ∈ hits.mapM (normalAttribute? allow), ∀ part ∈ parts, IsClosed part := by
  induction h with
  | nil =>
    refine ⟨rfl, ?_⟩
    rintro _ ⟨⟩
    exact List.forall_mem_nil _
  | @cons hit hit' hits hits' hfirst _ ih =>
    rw [List.mapM_cons, List.mapM_cons, normalAttribute?_unified allow hfirst.1 hfirst.2, ih.1]
    cases hwritten : normalAttribute? allow hit with
    | none => exact ⟨rfl, nofun⟩
    | some written =>
      cases hothers : hits.mapM (normalAttribute? allow) with
      | none => exact ⟨rfl, nofun⟩
      | some parts =>
        refine ⟨rfl, ?_⟩
        rintro _ ⟨⟩
        exact List.forall_mem_cons.mpr ⟨isClosed_normalAttribute hwritten, ih.2 parts hothers⟩

theorem flatten_map_unifyLineEnds {parts : List Text} (h : ∀ part ∈ parts, IsClosed part) :
    (parts.map unifyLineEnds).flatten = unifyLineEnds parts.flatten := by
  induction parts with
  | nil => rfl
  | cons part parts ih =>
    obtain ⟨hpart, hparts⟩ := List.forall_mem_cons.mp h
    rw [List.map_cons, List.flatten_cons, List.flatten_cons, ih hparts,
      unifyLineEnds_append fun hmeet => hpart.last hmeet.1]

theorem head?_flatten_ne {parts : List Text} {rest : Text} (h : ∀ part ∈ parts, IsClosed part)
    (hrest : rest.head? ≠ some '\n') : (parts.flatten ++ rest).head? ≠ some '\n' := by
  cases parts with
  | nil => exact hrest
  | cons part parts =>
    have hpart := h part List.mem_cons_self
    rw [List.flatten_cons, List.append_assoc, List.head?_append_of_ne_nil _ hpart.nonempty]
    exact hpart.first

theorem normalStartTag_unified (allow : Bool) {hit hit' : Hit TagPart}
    (hmatch : startTagPattern.matchAt here = some hit) (hhit : UnifiedHit text hit hit') :
    normalStartTag allow hit' = unifyLineEnds (normalStartTag allow hit) ∧
      IsClosed (normalStartTag allow hit) := by
  have hfirst : StartsWith '<' startTagPattern :=
    ((((startsWith_char.append _).append _).append _).append _).append _
  have hlast : EndsWith '>' startTagPattern := endsWith_char.append _
  have hwhole : IsClosed hit.text :=
    isClosed_of_matchAt hfirst hlast (by decide) (by decide) hmatch
  have hclosing : ∀ c ∈ hit.group .closing ++ ['>'], isLineEnd c = false := by
    refine List.forall_mem_append.mpr ⟨?_, by decide⟩
    rcases captures_startTagPattern.group hmatch .closing with hnone | hslash
    · rw [hnone]
      exact List.forall_mem_nil _
    · intro c hc
      rw [hslash c hc]
      decide
  have hclosed : unifyLineEnds (hit.group .closing) = hit.group .closing :=
    unifyLineEnds_of_forall fun c hc => hclosing c (List.mem_append_left _ hc)
  obtain ⟨hsame, hparts⟩ := mapM_normalAttribute_unified allow
    (hits_unifyLineEnds_of_match (keeps_looseAttribute.ignores blocks_looseAttribute)
      (hit.group .attributes))
  rw [normalStartTag, normalStartTag, hhit.group, hhit.group, hhit.group, hhit.text_eq, hsame,
    Text.isBlankText, Text.isBlankText, all_unifyLineEnds (by decide)]
  split_ifs
  · exact ⟨rfl, hwhole⟩
  · cases hwritten : (looseAttribute.hits (hit.group .attributes)).mapM
        (normalAttribute? allow) with
    | none => exact ⟨rfl, hwhole⟩
    | some parts =>
      have hall := hparts parts hwritten
      have hend : (hit.group .closing ++ ['>']).head? ≠ some '\n' := by
        intro hfeed
        exact absurd (hclosing _ (List.mem_of_head? hfeed)) (by decide)
      simp only [Option.map_some, List.cons_append, List.append_assoc]
      refine ⟨?_, by simp, by simp, ?_⟩
      · rw [unifyLineEnds_cons (by decide),
          unifyLineEnds_append_of_head (head?_flatten_ne hall hend),
          unifyLineEnds_append_of_head hend, unifyLineEnds_of_forall hclosing, hclosed,
          flatten_map_unifyLineEnds hall]
      · rw [← List.cons_append, ← List.append_assoc, ← List.append_assoc, List.getLast?_concat]
        decide

theorem numberedReference_unified {hit hit' : Hit Unit}
    (hmatch : namedReference.matchAt here = some hit) (hhit : UnifiedHit text hit hit') :
    numberedReference hit' = unifyLineEnds (numberedReference hit) ∧
      IsClosed (numberedReference hit) := by
  have hfirst : StartsWith '&' namedReference := (startsWith_char.append _).append _
  have hlast : EndsWith ';' namedReference := endsWith_char.append _
  have hwhole : IsClosed hit.text :=
    isClosed_of_matchAt hfirst hlast (by decide) (by decide) hmatch
  have hname : ∀ c ∈ hit.group (), isLineEnd c = false := by
    have hchars : PassesOnly Char.isAlphanum (entityName : Pattern Unit) :=
      (PassesOnly.one fun c hc => by simp [Char.isAlphanum, hc]).append
        (PassesOnly.one fun _ hc => hc).star
    have hcaptures : Captures (fun _ text => ∀ c ∈ text, isLineEnd c = false) namedReference :=
      ⟨⟨trivial, ⟨trivial, trivial⟩, fun _ _ hleads c hc => isLineEnd_eq_false
        (by decide) (by decide) (hchars.forall_mem_spanTo hleads c hc)⟩, trivial⟩
    rcases hcaptures.group hmatch () with hnone | hchars
    · rw [hnone]
      exact List.forall_mem_nil _
    · exact hchars
  rw [numberedReference, numberedReference, hhit.group, hhit.text_eq, unifyLineEnds_of_forall hname]
  split_ifs
  · exact ⟨rfl, hwhole⟩
  · cases codePoint? (hit.group ()) with
    | none => exact ⟨rfl, hwhole⟩
    | some n =>
      refine ⟨(unifyLineEnds_of_forall ?_).symm, by simp, by simp, ?_⟩
      · refine List.forall_mem_append.mpr ⟨List.forall_mem_append.mpr ⟨by decide, ?_⟩, by decide⟩
        exact fun c hc => isLineEnd_eq_false (by decide) (by decide)
          (Value.isDigit_of_mem_repr hc)
      · rw [List.getLast?_concat]
        decide

theorem normalize_unifyLineEnds (allow : Bool) (text : Text) :
    normalize allow (unifyLineEnds text) = unifyLineEnds (normalize allow text) := by
  have hampersands (text : Text) :
      looseAmpersand.replace (fun _ => "&amp;".toList) (unifyLineEnds text) =
        unifyLineEnds (looseAmpersand.replace (fun _ => "&amp;".toList) text) :=
    replace_unifyLineEnds ignores_looseAmpersand text
      fun _ _ => ⟨by decide, by decide, by decide, by decide⟩
  rw [normalize, normalize, replace_unifyLineEnds ignores_startTagPattern text
    (normalStartTag_unified allow), replace_unifyLineEnds ignores_namedReference _
      numberedReference_unified, hampersands]

theorem betweenStep_unified {pattern : Pattern Unit} {change : Text → Text}
    {found found' : List (Piece Unit)} (hpieces : UnifiedPieces pattern text found found')
    (hchange : ∀ text, change (unifyLineEnds text) = unifyLineEnds (change text))
    (hclosed : ∀ {hit}, pattern.matchAt hit.start = some hit → IsClosed hit.text)
    {behind behind' : Text × Text} (hbehind : found.foldr (betweenStep change) ([], []) = behind)
    (hbehind' : found'.foldr (betweenStep change) ([], []) = behind') :
    behind'.1 = unifyLineEnds behind.1 ∧ behind'.2 = unifyLineEnds behind.2 ∧
      behind.2.head? ≠ some '\n' ∧
      (behind.1.head? = some '\n' → ∃ more, found = .plain '\n' :: more) := by
  subst hbehind hbehind'
  induction hpieces with
  | nil => exact ⟨rfl, rfl, nofun, nofun⟩
  | @char c rest rest' hsingle _ ih =>
    obtain ⟨hgap, hdone, hhead, hfeed⟩ := ih
    refine ⟨?_, hdone, hhead, fun h => ⟨rest, by rw [Option.some.inj h]⟩⟩
    have hc : ¬(c = '\r' ∧ (rest.foldr (betweenStep change) ([], [])).1.head? = some '\n') := by
      rintro ⟨rfl, hnext⟩
      obtain ⟨more, hmore⟩ := hfeed hnext
      exact hsingle rfl more hmore
    exact (congrArg (unified c :: ·) hgap).trans (unifyLineEnds_single hc).symm
  | lineEnd _ ih =>
    obtain ⟨hgap, hdone, hhead, -⟩ := ih
    refine ⟨?_, hdone, hhead, nofun⟩
    exact (congrArg ('\n' :: ·) hgap).trans unifyLineEnds_return_feed.symm
  | @matched hit hit' rest rest' hmatch hhit _ ih =>
    obtain ⟨hgap, hdone, hhead, -⟩ := ih
    have hwhole := hclosed hmatch
    simp only [List.foldr_cons, betweenStep]
    refine ⟨rfl, ?_, ?_, nofun⟩
    · rw [hhit.text_eq, hgap, hdone, hchange, unifyLineEnds_append_of_head hhead,
        unifyLineEnds_append fun hmeet => hwhole.last hmeet.1]
    · rw [List.append_assoc, List.head?_append_of_ne_nil _ hwhole.nonempty]
      exact hwhole.first

theorem normalizeOutsideSections_unifyLineEnds (allow : Bool) (text : Text) :
    normalizeOutsideSections allow (unifyLineEnds text) =
      unifyLineEnds (normalizeOutsideSections allow text) := by
  have hclosed {hit : Hit Unit} (h : sectionPattern.matchAt hit.start = some hit) :
      IsClosed hit.text :=
    isClosed_of_matchAt (((startsWith_exactly _).append _).append _)
      ((endsWith_exactly [']', ']']).append _) (by decide) (by decide) h
  obtain ⟨hgap, hdone, hhead, -⟩ := betweenStep_unified
    (pieces_unifyLineEnds ignores_sectionPattern text)
    (normalize_unifyLineEnds allow) hclosed rfl rfl
  rw [normalizeOutsideSections, normalizeOutsideSections, changeBetween_eq, changeBetween_eq, hgap,
    hdone, normalize_unifyLineEnds, unifyLineEnds_append_of_head hhead]

end Visualforce.Markup
