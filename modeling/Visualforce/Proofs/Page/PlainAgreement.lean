import Visualforce.Page.Extract
import Visualforce.Proofs.Markup.PlainBuild
import Visualforce.Proofs.Page.PlainRecovery
import Visualforce.Proofs.Page.PlainTree

/-! # Two readings of a plain page

A plain page can be read from its tree, and a recovery that knows nothing of the tree comes to the
same facts.
-/
namespace Visualforce.Page
open Markup
open Expression (IsMarked)

variable {page : Written} {head : Head}

theorem foundIn_tree (closes : Bool) (hhead : head.IsPlain) (hinner : ArePlain page.children) :
    foundIn (page.tree head) = Expression.find
      (sourceOf (.opening head closes :: (tokensOf page.children ++ closingOf head closes))) := by
  have hplain : ∀ token ∈ Token.opening head closes ::
      (tokensOf page.children ++ closingOf head closes), token.IsPlain := by
    rw [List.forall_mem_cons]
    exact ⟨hhead, fun token htoken => (plain_below_root closes hhead hinner token htoken).1⟩
  have hclosing : (closingOf head closes).flatMap (shownAt Expression.find foundInHead) = [] := by
    cases closes <;> rfl
  have hnodes : foundIn (page.tree head) =
      foundInHead head ++ foundInNodes [head.tag] (nodesOf page.children) := rfl
  rw [hnodes, foundInNodes_tree hinner, find_sourceOf hplain, List.flatMap_cons,
    List.flatMap_append, hclosing, List.append_nil]
  rfl

theorem readTree_source (h : page.IsPlainPage) (hhead : page.head? = some head) :
    ∃ read, ofTree Config.standard (page.tree head) = .ok read ∧
      readTree Config.standard page.source = .ok read := by
  obtain ⟨read, hread⟩ := ofTree_ok (by decide : HasPreviewLimits Config.standard) (page.tree head)
  refine ⟨read, hread, ?_⟩
  rw [readTree, build_source h hhead]
  simp only [hread]

/-- The facts of a plain page do not depend on whether it is read from its tree or recovered from
its text. -/
theorem readTree_agrees_with_recover (h : page.IsPlainPage) :
    ∃ read, readTree Config.standard page.source = .ok read ∧
      read.facts = (recover Config.standard page.source).facts := by
  obtain ⟨head, hhead, htag, hplain⟩ := h.root
  obtain ⟨closes, htokens, -⟩ := tokens_of_head? hhead
  obtain ⟨read, htree, hread⟩ := readTree_source h hhead
  refine ⟨read, hread, ?_⟩
  have hrecover := recover_facts closes hplain htag (plain_below_root closes hplain h.inner)
  have hsource : page.source =
      sourceOf (.opening head closes :: (tokensOf page.children ++ closingOf head closes)) := by
    rw [Written.source, htokens]
  rw [hsource, hrecover, ofTree_facts htree, below_tree h.inner, foundIn_tree closes hplain h.inner,
    headsOf_below_root]
  rfl

def greetingPage : Written :=
  .element ⟨pageRoot, [⟨"standardController".toList, "Car".toList⟩]⟩
    [.text "Hello \x7b!name\x7d".toList,
      .element ⟨blockTag, [⟨"title".toList, "Cars > \x7b!total\x7d".toList⟩]⟩
        [.closed ⟨"c:badge".toList, []⟩]]

theorem greetingPage_isPlainPage : greetingPage.IsPlainPage := by
  have hroot : pageRoot = "apex".toList ++ ':' :: "page".toList := by decide
  have hblock : blockTag = "apex".toList ++ ':' :: "pageBlock".toList := by decide
  have hbadge : "c:badge".toList = "c".toList ++ ':' :: "badge".toList := by decide
  have htext : "Hello \x7b!name\x7d".toList =
      "Hello ".toList ++ '{' :: '!' :: ("name".toList ++ ['}']) := by
    decide
  have htitle : "Cars > \x7b!total\x7d".toList =
      "Cars > ".toList ++ '{' :: '!' :: ("total".toList ++ ['}']) := by
    decide
  refine ⟨⟨_, rfl, rfl, ⟨?_, by decide, by decide, by decide, ?_⟩⟩, ⟨?_, ⟨?_, ?_, ?_⟩, trivial⟩, by
    decide⟩
  · rw [hroot]
    exact .qualified (by decide) (by decide) (by decide)
  · exact List.forall_mem_singleton.mpr ⟨by decide, .of_all (by decide)⟩
  · change IsMarked isPlainChar _
    rw [htext]
    exact .append (.of_all (by decide)) (.field (by decide) (by decide) .nil)
  · refine ⟨?_, by decide, by decide, by decide, List.forall_mem_singleton.mpr ⟨by decide, ?_⟩⟩
    · rw [hblock]
      exact .qualified (by decide) (by decide) (by decide)
    · rw [htitle]
      exact .append (.of_all (by decide)) (.field (by decide) (by decide) .nil)
  · exact ⟨by decide, by decide⟩
  · refine ⟨⟨⟨?_, by decide, by decide, by decide, by simp⟩, by decide, by decide⟩, trivial⟩
    rw [hbadge]
    exact .qualified (by decide) (by decide) (by decide)

theorem readTree_greetingPage : greetingPage.IsPlainPage ∧
    ∃ read, readTree Config.standard greetingPage.source = .ok read ∧
      read.facts = (recover Config.standard greetingPage.source).facts :=
  ⟨greetingPage_isPlainPage, readTree_agrees_with_recover greetingPage_isPlainPage⟩

end Visualforce.Page
