import Visualforce.Proofs.Markup.ClearToken

/-! # Patterns at the tags of clear pages

How the patterns that begin with an opening angle bracket match at a tag: at the tag as a whole, up
to the case of its name or not at all.
-/
namespace Visualforce.Markup
open Pattern Cursor

variable {κ α : Type} {groups : List (κ × Span)} {before : Option Char} {rest : Text}
variable {goOn : Place κ → Option (Place κ)} {last : Place κ} {pattern : Pattern κ}
variable {view : Hit κ → α} {token : Token}

theorem quiet_of_not_mem (hbegins : Begins pattern (· == '<')) {passed : Text} (h : '<' ∉ passed)
    (before : Option Char) (rest : Text) : Quiet pattern before passed rest :=
  hbegins.quiet (fun _ hc => beq_false_of_ne fun hc' => h (hc' ▸ hc)) before rest

/-- If the token is a tag, the pattern does not match at it. -/
def Misses (pattern : Pattern κ) (token : Token) : Prop :=
  ∀ more, token.source = '<' :: more → ∀ before rest groups goOn,
    pattern.run ⟨between before ('<' :: (more ++ rest)), groups⟩ goOn = none

theorem Misses.append {first : Pattern κ} (h : Misses first token) (second : Pattern κ) :
    Misses (first ++ second) token :=
  fun more hsource before rest groups _ => h more hsource before rest groups _

theorem Misses.matchAt (h : Misses pattern token) {more : Text}
    (hsource : token.source = '<' :: more)
    (before : Option Char) (rest : Text) :
    pattern.matchAt (between before ('<' :: (more ++ rest))) = none := by
  rw [Pattern.matchAt, h more hsource]
  rfl

theorem Misses.quiet (hmiss : Misses pattern token) (hbegins : Begins pattern (· == '<'))
    (h : token.IsClear) (before : Option Char) (rest : Text) :
    Quiet pattern before token.source rest := by
  rcases h.source_cases with hsource | ⟨more, hsource, hmore⟩
  · exact quiet_of_not_mem hbegins hsource before rest
  · rw [hsource]
    exact ⟨hmiss.matchAt hsource before rest, quiet_of_not_mem hbegins hmore _ rest⟩

theorem Misses.yields (hmiss : Misses pattern token) (hbegins : Begins pattern (· == '<'))
    (h : token.IsClear) : Yields pattern (seen view) anything token.source [] :=
  .of_quiet (fun _ _ => trivial) fun before rest _ => hmiss.quiet hbegins h before rest

theorem misses_text (content : Text) (h : (Token.text content).IsClear) :
    Misses pattern (.text content) := by
  intro more hsource
  have hcontent : content = '<' :: more := hsource
  exact absurd (hcontent ▸ List.mem_cons_self) (not_mem_text h)

/-- A pattern that misses every token of a page occurs nowhere in the page. -/
theorem quiet_sourceOf {tokens : List Token} (hbegins : Begins pattern (· == '<'))
    (h : ∀ token ∈ tokens, token.IsClear ∧ Misses pattern token) :
    Quiet pattern none (sourceOf tokens) [] :=
  quiet_flatMap (fun token htoken => (h token htoken).2.quiet hbegins (h token htoken).1) none []

/-- A match that takes the beginning of a tag shows its value once. -/
theorem yields_of_hit (hbegins : Begins pattern (· == '<')) (h : token.IsClear) {value : α}
    (hhit : ∀ before rest, ∃ hit after taken left, token.source = '<' :: (taken ++ left) ∧
      pattern.matchAt (between before (token.source ++ rest)) = some hit ∧
      hit.stop = between after (left ++ rest) ∧ view hit = value) :
    Yields pattern (seen view) anything token.source [value] := by
  refine .of_hit (fun _ _ => trivial) ?_
  intro before rest _
  obtain ⟨hit, after, taken, left, hsource, hmatch, hstop, hview⟩ := hhit before rest
  refine ⟨hit, after, left, hmatch, hstop, ?_, hview, ?_⟩
  · simp only [hsource, List.length_cons, List.length_append]
    omega
  · refine quiet_of_not_mem hbegins ?_ after rest
    rcases h.source_cases with hfree | ⟨more, hmore, hfree⟩
    · exact absurd (by rw [hsource]; exact List.mem_cons_self) hfree
    · rw [hsource, List.cons_eq_cons] at hmore
      rw [← hmore.2] at hfree
      exact fun hmem => hfree (List.mem_append_right _ hmem)

theorem hits_sourceOf {tokens : List Token} {expected : Token → List α}
    (h : ∀ token ∈ tokens, Yields pattern (seen view) anything token.source (expected token)) :
    (pattern.hits (sourceOf tokens)).map view = tokens.flatMap expected :=
  (Yields.flatMap h).hits trivial

/-- What follows the bracket of a tag begins a name or is a slash. -/
theorem Token.IsClear.second {more : Text} (h : token.IsClear)
    (hsource : token.source = '<' :: more) :
    ∃ c rest, more = c :: rest ∧ (isTagNameStart c ∨ c = '/') := by
  cases token with
  | text content =>
    have hcontent : content = '<' :: more := hsource
    exact absurd (hcontent ▸ List.mem_cons_self) (not_mem_text h)
  | opening head closes =>
    obtain ⟨c, name, hname, hc, -⟩ := (Head.IsClear.tag h).spelling.exists_cons
    obtain ⟨-, rfl⟩ := List.cons_eq_cons.mp hsource
    rw [hname]
    exact ⟨c, _, rfl, .inl hc⟩
  | closing tag =>
    obtain ⟨-, rfl⟩ := List.cons_eq_cons.mp hsource
    exact ⟨'/', _, rfl, .inr rfl⟩

/-- No tag opens a comment, a section or a declaration. -/
theorem misses_exclamation {text : String} {passed : Text}
    (htext : text.toList = '<' :: '!' :: passed)
    (h : token.IsClear) : Misses (literal text : Pattern κ) token := by
  intro more hsource before rest groups goOn
  obtain ⟨c, tail, rfl, hc⟩ := h.second hsource
  rw [literal, htext, run_exactly_of_not_isPrefix]
  rw [List.cons_prefix_cons, List.cons_append, List.cons_prefix_cons]
  rintro ⟨-, rfl, -⟩
  rcases hc with hc | hc
  · exact absurd hc (by decide)
  · exact absurd hc (by decide)

theorem foldKey_of_ascii {c : Char} (hc : c.toNat < 128) : Text.foldKey c = c.toLower.toNat := by
  have hall : ∀ n : Fin 128, Text.foldKey (Char.ofNat n) = (Char.ofNat n).toLower.toNat := by decide
  have hchar := hall ⟨c.toNat, hc⟩
  simpa only [Char.ofNat_toNat] using hchar

theorem toLower_eq_of_sameUpToCase {c d : Char} (hc : c.toNat < 128) (hd : d.toNat < 128)
    (h : Text.sameUpToCase c d) : c.toLower = d.toLower := by
  rw [Text.sameUpToCase, foldKey_of_ascii hc, foldKey_of_ascii hd, beq_iff_eq] at h
  exact Char.toNat_inj.mp h

/-- A name that a tag does not begin with in any case is not matched at the tag. -/
theorem run_caseless_of_not_isPrefix (tag : Text) {name after : Text}
    (hname : ∀ c ∈ name, c.toNat < 128 ∧ c.toLower = c ∧ c ∉ [' ', '/', '>'])
    (htag : ∀ c ∈ tag, c.toNat < 128) (hafter : EndsName after)
    (h : ¬ name <+: tag.map Char.toLower) :
    (caseless name).run ⟨between before (tag ++ after), groups⟩ goOn = none := by
  have hcons : ∀ c name, (caseless (c :: name) : Pattern κ) =
      one (Text.sameUpToCase c) ++ caseless name := fun _ _ => rfl
  induction name generalizing before tag with
  | nil => exact absurd List.nil_prefix h
  | cons c name ih =>
    obtain ⟨⟨hc, hlow, hmark⟩, hname⟩ := List.forall_mem_cons.mp hname
    cases tag with
    | nil =>
      obtain ⟨d, more, rfl, hd⟩ := hafter
      rw [hcons, run_append]
      refine run_one_of_head? ?_
      rintro _ ⟨⟩
      rw [Bool.eq_false_iff]
      intro hsame
      have hlt : ∀ d ∈ [' ', '/', '>'], d.toNat < 128 ∧ d.toLower = d := by decide
      have heq := toLower_eq_of_sameUpToCase hc (hlt d hd).1 hsame
      rw [hlow, (hlt d hd).2] at heq
      exact hmark (heq ▸ hd)
    | cons d tag =>
      obtain ⟨hd, htag⟩ := List.forall_mem_cons.mp htag
      simp only [hcons, List.cons_append, run_append, run_one_cons]
      split_ifs with hsame
      · refine ih _ hname htag fun hfront => h ?_
        rw [List.map_cons, List.cons_prefix_cons, ← hlow]
        exact ⟨toLower_eq_of_sameUpToCase hc hd hsame, hfront⟩
      · rfl

end Visualforce.Markup
