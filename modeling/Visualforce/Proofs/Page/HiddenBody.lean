import Visualforce.Proofs.Markup.HiddenBody
import Visualforce.Page.Recovery

/-! # Recovery around opaque elements

All steps of a recovery but the one for expressions read what is visible of a text. So a hidden body
leaves everything else on the recovered page as it is.
-/
namespace Visualforce.Page
open Pattern Markup

variable {config : Config} {text other name first last body : Text}

def withFieldsOf (page other : Page) : Page :=
  { page with expressions := other.expressions, fieldReferences := other.fieldReferences }

theorem runStep_of_visible (h : visible config text = visible config other) {step : Step}
    (hstep : step ≠ .expressions) (page : Page) : runStep config text page step =
    runStep config other page step := by
  cases step with
  | expressions => exact absurd rfl hstep
  | settings | components | bindings | blocks | actionSupports | outputPanels =>
    rw [runStep, runStep, Step.run, Step.run, h]

theorem runSteps_of_visible (h : visible config text = visible config other) {steps : List Step}
    (hsteps : .expressions ∉ steps) (page : Page) : runSteps config text steps page =
    runSteps config other steps page := by
  induction steps generalizing page with
  | nil => rfl
  | cons step steps ih =>
    have hne : step ≠ .expressions := fun heq => hsteps (heq ▸ List.mem_cons_self)
    have hrun := ih (List.not_mem_of_not_mem_cons hsteps) (runStep config text page step)
    rw [runStep_of_visible h hne] at hrun
    rw [runSteps, List.foldl_cons, ← runSteps, runStep_of_visible h hne, hrun]
    rfl

/-- The steps of a recovery before the one for expressions. -/
def visibleSteps : List Step :=
  [.settings, .components, .bindings, .blocks, .actionSupports, .outputPanels]

theorem recover_eq_collect (config : Config) (text : Text) : recover config text =
    collect (runSteps config text visibleSteps (Page.empty .fallback)) text documentContext := by
  have hall : Step.all = visibleSteps ++ [.expressions] := rfl
  rw [recover, hall, runSteps, List.foldl_append, ← runSteps]
  rfl

theorem recover_of_visible (h : visible config text = visible config other) :
    recover config text = (recover config other).withFieldsOf (recover config text) := by
  have hsteps := runSteps_of_visible h (by decide : .expressions ∉ visibleSteps)
    (Page.empty .fallback)
  rw [recover_eq_collect, recover_eq_collect, hsteps]
  generalize runSteps config other visibleSteps (Page.empty .fallback) = page
  rfl

/-- Between a text without comments and tags of opaque elements and any other text, what is
recovered does not depend on the body of an opaque element, up to expressions and field references,
when the body leaves open no comment that the text behind it closes and, without its comments, holds
no end tag of an opaque element. -/
theorem recover_hides_body (hname : name ∈ Config.standard.opaqueTags)
    (hcomment : ¬ commentOpening <:+: first)
    (htags : IsTagFree first) (hbody : IsHidden body last) :
    recover Config.standard (first ++ (around [name] body ++ last)) =
      (recover Config.standard (first ++ (around [name] [] ++ last))).withFieldsOf
        (recover Config.standard (first ++ (around [name] body ++ last))) := by
  obtain ⟨shown, hshown⟩ := exists_visible hname hcomment htags last
  refine recover_of_visible ?_
  rw [hshown body hbody, hshown [] (isHidden_nil last)]

def codeBefore : Text := "<apex:page controller=\"Main\"><c:a/>".toList

/-- Code with markup in a text, a comment that holds an end tag, and a start tag. -/
def codeInside : Text := "s = \"<c:x/></style\"; // <!-- <c:y/> </style> --> <style>".toList

def codeBehind : Text := "<c:z/></apex:page>".toList

theorem recover_codeInside : "script".toList ∈ Config.standard.opaqueTags ∧ ¬ commentOpening <:+:
    codeBefore ∧
    IsTagFree codeBefore ∧ IsHidden codeInside codeBehind ∧
    recover Config.standard (codeBefore ++ (around ["script".toList] codeInside ++ codeBehind)) =
      (recover Config.standard
        (codeBefore ++ (around ["script".toList] [] ++ codeBehind))).withFieldsOf
        (recover Config.standard
          (codeBefore ++ (around ["script".toList] codeInside ++ codeBehind))) ∧
    (recover Config.standard
      (codeBefore ++ (around ["script".toList] codeInside ++ codeBehind))).components.map
      (·.name) = ["a".toList, "z".toList] := by
  have hname : "script".toList ∈ Config.standard.opaqueTags := by decide
  have hcomment : ¬ commentOpening <:+: codeBefore := by decide +kernel
  have htags : IsTagFree codeBefore := by
    unfold IsTagFree
    decide +kernel
  have hbody : IsHidden codeInside codeBehind := ⟨by decide +kernel, .inl (by decide +kernel)⟩
  exact ⟨hname, hcomment, htags, hbody, recover_hides_body hname hcomment htags hbody, by
    decide +kernel⟩

/-- A script that holds the end tag of a style, and a component behind it. -/
def strayBody : Text := "</style><c:x/>".toList

/-- The end tag of another opaque element ends the body, so that the component behind it is
found. -/
theorem recover_strayBody : Text.somewhere (beginsEnd "script".toList) strayBody = false ∧
    (recover Config.standard (around ["script".toList] strayBody)).components.map (·.name) =
      ["x".toList] ∧
    (recover Config.standard (around ["script".toList] [])).components = [] := by
  decide +kernel

end Visualforce.Page
