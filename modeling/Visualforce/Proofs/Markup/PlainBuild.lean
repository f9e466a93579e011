import Visualforce.Proofs.Markup.OrdinaryBuild
import Visualforce.Proofs.Markup.PlainToken

/-! # Building the trees of plain pages

The values of a plain page are trimmed, so it is built into the very tree that it was written from.
-/
namespace Visualforce.Markup

variable {page : Written} {head : Head}

theorem plain_below_root (closes : Bool) (hhead : head.IsPlain) (hinner : ArePlain page.children) :
    ∀ token ∈ tokensOf page.children ++ closingOf head closes, token.IsPlain ∧ token.IsInner := by
  refine List.forall_mem_append.mpr ⟨ArePlain.tokens hinner, ?_⟩
  cases closes with
  | true => simp [closingOf]
  | false => simpa [closingOf] using ⟨hhead.tag, trivial⟩

theorem headsOf_below_root (closes : Bool) :
    headsOf (tokensOf page.children ++ closingOf head closes) =
      headsOf (tokensOf page.children) := by
  cases closes <;> simp [closingOf]

theorem Written.IsPlainPage.isTrimmed (h : page.IsPlainPage) :
    ∀ inner ∈ headsOf page.tokens, ∀ attr ∈ inner.attributes, Text.IsTrimmed attr.value := by
  obtain ⟨root, closes, rest, htokens, -, -, hplain, hrest⟩ := h.tokens
  rw [htokens, headsOf_opening]
  refine List.forall_mem_cons.mpr ⟨fun attr hattr => (hplain.values attr hattr).1, ?_⟩
  exact forall_mem_headsOf fun _ _ hmem attr hattr => ((hrest _ hmem).1.values attr hattr).1

/-- A plain page is built into the tree that it was written from. -/
theorem build_source (h : page.IsPlainPage) (hhead : page.head? = some head) :
    build Config.standard page.source = .ok (page.tree head) := by
  obtain ⟨closes, htokens, -⟩ := tokens_of_head? hhead
  have hmem : head ∈ headsOf page.tokens := by
    rw [htokens]
    exact List.mem_cons_self
  rw [build_ordinary h.isOrdinaryPage hhead, page.trimmed_of_values h.isTrimmed,
    Head.trimmed_of_values (h.isTrimmed head hmem)]

end Visualforce.Markup
