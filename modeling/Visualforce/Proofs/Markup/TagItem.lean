import Visualforce.Proofs.Markup.TagMatch

/-! # Inside the tags of clear pages

The attributes of a clear tag are units of which none ends the tag, so the patterns for whole tags
pass over all of them, and each attribute is read back with its value.
-/
namespace Visualforce.Markup
open Pattern Cursor

variable {κ α : Type} {groups : List (κ × Span)} {before : Option Char} {rest : Text}
variable {goOn : Place κ → Option (Place κ)} {last : Place κ}

theorem run_quotedWith {quote : Char} {value : Text} (hvalue : quote ∉ value)
    (hgo : goOn ⟨between (some quote) rest, groups⟩ = some last) :
    (quotedWith quote).run ⟨between before (quote :: (value ++ quote :: rest)), groups⟩ goOn =
      some last := by
  simp only [quotedWith, char, run_append, run_one_cons, beq_self_eq_true, if_true]
  refine run_starOne_of_some (fun c hc => bne_iff_ne.mpr fun h => hvalue (h ▸ hc)) ?_ ?_
  · rintro c ⟨⟩
    simp
  · simpa using hgo

theorem run_equalsSign {c : Char} (hc : Text.isBlank c = false) :
    equalsSign.run ⟨between before ('=' :: c :: rest), groups⟩ goOn =
      goOn ⟨between (some '=') (c :: rest), groups⟩ := by
  have hstop : ∀ {before : Option Char} {d : Char} {more : Text}, Text.isBlank d = false →
      ∀ goOn, (star blank).run ⟨between before (d :: more), groups⟩ goOn =
        goOn ⟨between before (d :: more), groups⟩ := by
    intro before d more hd goOn
    refine run_star_stop (run_one_of_head? ?_)
    rintro _ ⟨⟩
    exact hd
  rw [equalsSign, run_append, run_append, hstop (by decide)]
  simp only [char, run_one_cons, beq_self_eq_true, if_true]
  exact hstop hc goOn

theorem run_equalsSign_of_ne {text : Text} (h : (text.dropWhile Text.isBlank).head? ≠ some '=') :
    equalsSign.run ⟨between before text, groups⟩ goOn = none := by
  rw [equalsSign, run_append, run_append, blank, run_starOne_takeWhile]
  · refine run_one_of_head? fun c hc => beq_false_of_ne ?_
    rintro rfl
    exact h hc
  · intro before c rest hc
    refine run_one_of_head? ?_
    rintro d ⟨⟩
    exact beq_false_of_ne fun h => absurd (h ▸ hc) (by decide)

/-- The place after the value that a quoted value was captured from. -/
theorem run_quotedValue (key : κ) {value : Text} (hvalue : '"' ∉ value)
    (hgo : goOn ⟨between (some '"') rest, (key, (between (some '"') (value ++ '"' :: rest)).spanTo
      (between (behind (some '"') value) ('"' :: rest))) :: groups⟩ = some last) :
    (quotedValue key).run ⟨between before ('"' :: (value ++ '"' :: rest)), groups⟩ goOn =
      some last := by
  rw [quotedValue, run_alt, Option.or_eq_some_iff]
  refine .inl ?_
  simp only [char, run_append, run_group, run_one_cons, beq_self_eq_true, if_true]
  refine run_starOne_of_some (fun c hc => ?_) ?_ ?_
  · have hne : c ≠ '"' := by
      rintro rfl
      exact hvalue hc
    simp [hne]
  · rintro c ⟨⟩
    decide
  · simpa using hgo

/-- The equals sign of an assignment and a value between quotes, which alone is captured. -/
def assignedValue (key : κ) : Pattern κ :=
  equalsSign ++ quoteMark ++ group key (star (noneOf "\"'")) ++ quoteMark

theorem run_assignedValue (key : κ) (before : Option Char) {value : Text} (rest : Text)
    (groups : List (κ × Span)) (hquote : '"' ∉ value) (hquote' : '\'' ∉ value) :
    ∃ span : Span, span.text = value ∧
      (assignedValue key).run ⟨between before ('=' :: '"' :: (value ++ '"' :: rest)), groups⟩ some =
        some ⟨between (some '"') rest, (key, span) :: groups⟩ := by
  refine ⟨_, spanTo_text (some '"') (behind (some '"') value) value ('"' :: rest), ?_⟩
  simp only [assignedValue, run_append]
  rw [run_equalsSign (by decide)]
  simp only [quoteMark, oneOf, run_one_cons, run_group]
  rw [if_pos (by decide)]
  refine run_starOne_of_some (fun c hc => ?_) ?_ (by rw [run_one_cons]; rfl)
  · have hne : c ≠ '"' := by
      rintro rfl
      exact hquote hc
    have hne' : c ≠ '\'' := by
      rintro rfl
      exact hquote' hc
    simp [hne, hne']
  · rintro c ⟨⟩
    decide

/-- A text of characters and quoted texts among which no tag ends. -/
inductive IsItems : Text → Prop where
  | nil : IsItems []
  | char {c : Char} {rest : Text} (hc : c ∉ ['>', '"', '\'', '/']) (hrest : IsItems rest) :
      IsItems (c :: rest)
  | quoted {value rest : Text} (hvalue : '"' ∉ value) (hrest : IsItems rest) :
      IsItems ('"' :: (value ++ '"' :: rest))

theorem tagItem_eq : (tagItem : Pattern κ) =
    alt (noneOf ">\"'") (alt (quotedWith '"') (quotedWith '\'')) := rfl

theorem run_tagItem_char {c : Char} (hc : c ∉ ['>', '"', '\'']) :
    tagItem.run ⟨between before (c :: rest), groups⟩ some =
      some ⟨between (some c) rest, groups⟩ := by
  have hnone : (noneOf ">\"'" : Pattern κ).run ⟨between before (c :: rest), groups⟩ some =
      some ⟨between (some c) rest, groups⟩ := by
    simp only [List.mem_cons, List.not_mem_nil, or_false, not_or] at hc
    simp [noneOf, hc]
  rw [tagItem_eq, run_alt, hnone, Option.some_or]

theorem run_tagItem_quoted {value : Text} (hvalue : '"' ∉ value) :
    tagItem.run ⟨between before ('"' :: (value ++ '"' :: rest)), groups⟩ some =
      some ⟨between (some '"') rest, groups⟩ := by
  have hnone : (noneOf ">\"'" : Pattern κ).run
      ⟨between before ('"' :: (value ++ '"' :: rest)), groups⟩ some = none := by
    refine run_one_of_head? ?_
    rintro c ⟨⟩
    decide
  rw [tagItem_eq, run_alt, run_alt, hnone, Option.none_or, run_quotedWith hvalue rfl,
    Option.some_or]

theorem run_tagItem_close :
    tagItem.run ⟨between before ('>' :: rest), groups⟩ some = none := by
  simp [tagItem_eq, noneOf, quotedWith, char]

namespace IsItems

variable {text more : Text}

theorem append (h : IsItems text) (hmore : IsItems more) : IsItems (text ++ more) := by
  induction h with
  | nil => exact hmore
  | char hc _ ih => exact .char hc ih
  | quoted hvalue _ ih =>
    simp only [List.cons_append, List.append_assoc]
    exact .quoted hvalue ih

theorem of_all (h : ∀ c ∈ text, c ∉ ['>', '"', '\'', '/']) : IsItems text := by
  induction text with
  | nil => exact .nil
  | cons c text ih =>
    obtain ⟨hc, htext⟩ := List.forall_mem_cons.mp h
    exact .char hc (ih htext)

/-- A greedy repetition passes over all units when what follows leads to a match. -/
theorem run_star (h : IsItems text)
    (hgo : (star tagItem).run ⟨between (behind before text) rest, groups⟩ goOn = some last) :
    (star tagItem).run ⟨between before (text ++ rest), groups⟩ goOn = some last := by
  induction h generalizing before with
  | nil => exact hgo
  | @char c text hc _ ih =>
    have hitem : ∀ before, (tagItem : Pattern κ).run ⟨between before (c :: (text ++ rest)), groups⟩
        some = some ⟨between (some c) (text ++ rest), groups⟩ :=
      fun _ => run_tagItem_char fun hmem => hc (by simp at hmem ⊢; tauto)
    exact run_star_step_of_some (hitem before) (by simp) (ih hgo)
  | @quoted value text hvalue _ ih =>
    simp only [List.cons_append, List.append_assoc]
    refine run_star_step_of_some (run_tagItem_quoted hvalue) ?_ (ih ?_)
    · simp
      omega
    · rw [behind_cons, behind_append, behind_cons] at hgo
      exact hgo

/-- A lazy repetition passes over all units when no unit but the end of the tag can come next. -/
theorem run_starLazy (h : IsItems text)
    (hrefuse : ∀ before c rest, c ∉ ['>', '/'] → goOn ⟨between before (c :: rest), groups⟩ = none) :
    (starLazy tagItem).run ⟨between before (text ++ rest), groups⟩ goOn =
      (starLazy tagItem).run ⟨between (behind before text) rest, groups⟩ goOn := by
  induction h generalizing before with
  | nil => rfl
  | @char c text hc _ ih =>
    have hhere := hrefuse before c (text ++ rest) fun hmem => hc (by simp at hmem ⊢; tauto)
    have hitem : ∀ before, (tagItem : Pattern κ).run ⟨between before (c :: (text ++ rest)), groups⟩
        some = some ⟨between (some c) (text ++ rest), groups⟩ :=
      fun _ => run_tagItem_char fun hmem => hc (by simp at hmem ⊢; tauto)
    exact (run_starLazy_step hhere (hitem before) (by simp)).trans ih
  | @quoted value text hvalue _ ih =>
    have hhere := hrefuse before '"' (value ++ '"' :: (text ++ rest)) (by decide)
    simp only [List.cons_append, List.append_assoc]
    refine (run_starLazy_step hhere (run_tagItem_quoted hvalue) ?_).trans ?_
    · simp
      omega
    · rw [ih, behind_cons, behind_append, behind_cons]

end IsItems

theorem Head.IsClear.isItems {head : Head} (h : head.IsClear) : IsItems head.attributeSource := by
  have hall : ∀ attributes : List Attribute, (∀ attr ∈ attributes, attr ∈ head.attributes) →
      IsItems (attributes.flatMap Attribute.source) := by
    intro attributes
    induction attributes with
    | nil => exact fun _ => .nil
    | cons attr attributes ih =>
      intro hsub
      obtain ⟨hattr, hsub⟩ := List.forall_mem_cons.mp hsub
      rw [List.flatMap_cons]
      refine IsItems.append (.char (by decide) ?_) (ih hsub)
      refine IsItems.append (.of_all ?_) (.char (by decide) (.quoted (h.quote_not_mem hattr) .nil))
      refine (h.names attr hattr).1.spelling.forall_mem (fun c hc hmem => ?_) (by decide)
      exact (by decide : ∀ c ∈ ['>', '"', '\'', '/'], ¬ isPartChar c = true) c hmem hc
  exact hall head.attributes fun _ hattr => hattr

def Attribute.pair (attr : Attribute) : Text × Text := (attr.name, attr.value)

theorem matchAt_attributePair {name value : Text} (hname : IsSpelling name) (hvalue : '"' ∉ value)
    (before : Option Char) (rest : Text) : ∃ hit,
      attributePair.matchAt (between before (name ++ '=' :: '"' :: (value ++ '"' :: rest))) =
      some hit ∧
        hit.stop = between (some '"') rest ∧ (hit.group .name, hit.group .value) =
          (name, value) := by
  have hrun : attributePair.run
      ⟨between before (name ++ '=' :: '"' :: (value ++ '"' :: rest)), []⟩ some =
        some ⟨between (some '"') rest,
          [(.value, (between (some '"') (value ++ '"' :: rest)).spanTo
            (between (behind (some '"') value) ('"' :: rest))),
          (.name, (between before (name ++ '=' :: '"' :: (value ++ '"' :: rest))).spanTo
            (between (behind before name) ('=' :: '"' :: (value ++ '"' :: rest))))]⟩ := by
    simp only [attributePair, run_append, run_group]
    refine run_plusOne_of_some hname.ne_nil hname.isTagNameChar ?_ ?_
    · rintro c ⟨⟩
      decide
    · rw [run_equalsSign (by decide)]
      exact run_quotedValue _ hvalue rfl
  refine ⟨_, by rw [matchAt, hrun]; rfl, rfl, Prod.ext ?_ ?_⟩
  · exact spanTo_text _ _ name _
  · exact spanTo_text _ _ value _

theorem begins_attributePair : Begins attributePair isTagNameChar := by
  refine Begins.append (Begins.append (Begins.group ?_ _) _) _
  exact (Begins.one _).append _

theorem yields_attributePair {attr : Attribute} (hname : IsSpelling attr.name)
    (hvalue : '"' ∉ attr.value) :
    Yields attributePair (seen fun hit => (hit.group .name, hit.group .value)) anything attr.source
      [attr.pair] := by
  have hspace : Yields attributePair (seen fun hit => (hit.group .name, hit.group .value)) anything
      [' '] [] :=
    .of_quiet (fun _ _ => trivial) fun before rest _ =>
      begins_attributePair.quiet (by decide) before rest
  refine hspace.append (.of_hit (fun _ _ => trivial) fun before rest _ => ?_)
  obtain ⟨hit, hmatch, hstop, hview⟩ := matchAt_attributePair hname hvalue before rest
  refine ⟨hit, some '"', [], ?_, hstop, ?_, hview, trivial⟩
  · simpa using hmatch
  · simp only [List.append_eq, List.length_append, List.length_cons, List.length_nil]
    omega

/-- The attributes inside a tag are read back from its source, a closing slash or not. -/
theorem attributesIn_attributeSource {head : Head} (h : head.IsClear) (slash : Text)
    (hslash : ∀ c ∈ slash, c = '/') :
    attributesIn (head.attributeSource ++ slash) = head.attributeMap := by
  have hattributes : Yields attributePair (seen fun hit => (hit.group .name, hit.group .value))
      anything head.attributeSource (head.attributes.flatMap fun attr => [attr.pair]) :=
    .flatMap fun attr hattr => yields_attributePair (h.names attr hattr).1.spelling
      (h.quote_not_mem hattr)
  have hend : Yields attributePair (seen fun hit => (hit.group .name, hit.group .value)) anything
      slash [] :=
    .of_quiet (fun _ _ => trivial) fun before rest _ =>
      begins_attributePair.quiet (fun c hc => by rw [hslash c hc]; decide) before rest
  have hhits := (hattributes.append hend).hits trivial
  rw [List.append_nil, ← List.map_eq_flatMap] at hhits
  rw [attributesIn, hhits, Head.attributeMap]
  rfl

end Visualforce.Markup
