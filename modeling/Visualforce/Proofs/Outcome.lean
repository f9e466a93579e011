import Mathlib.Data.List.Forall2
import Visualforce.Text.Basic

/-! # Outcomes that may be errors

A sequence of steps succeeds when each of them does. These lemmas take such sequences apart.
-/
namespace Visualforce

variable {ε α β : Type}

@[simp] theorem ok_bind (a : α) (f : α → Except ε β) : (Except.ok a >>= f) = f a := rfl

@[simp] theorem pure_eq_ok (a : α) : (pure a : Except ε α) = .ok a := rfl

@[simp] theorem error_bind (error : ε) (f : α → Except ε β) :
    ((Except.error error : Except ε α) >>= f) = .error error := rfl

@[simp] theorem bind_eq_ok {first : Except ε α} {next : α → Except ε β} {b : β} :
    (first >>= next) = .ok b ↔ ∃ a, first = .ok a ∧ next a = .ok b := by
  cases first with
  | ok a => simp
  | error error => simp

@[simp] theorem map_eq_ok {first : Except ε α} {f : α → β} {b : β} :
    first.map f = .ok b ↔ ∃ a, first = .ok a ∧ f a = b := by
  cases first with
  | ok a => simp [Except.map]
  | error error => simp [Except.map]

theorem mapM_eq_ok_of_forall₂ {γ : Type} {related : α → β → Prop} {f : β → Except ε γ}
    {result : α → γ}
    (hf : ∀ a b, related a b → f b = .ok (result a)) {first : List α} {second : List β}
    (h : List.Forall₂ related first second) : second.mapM f = .ok (first.map result) := by
  induction h with
  | nil => rfl
  | cons hab _ ih => rw [List.mapM_cons, hf _ _ hab, ok_bind, ih]; rfl

/-- Both outcomes are errors, or both are values that are related. -/
inductive Agree {δ : Type} (related : α → β → Prop) : Except ε α → Except δ β → Prop where
  | error (error : ε) (other : δ) : Agree related (.error error) (.error other)
  | ok {a : α} {b : β} (h : related a b) : Agree related (.ok a) (.ok b)

namespace Agree

variable {δ γ ζ : Type} {related : α → β → Prop} {results : γ → ζ → Prop}
variable {first : Except ε α} {second : Except δ β} {f : α → Except ε γ} {g : β → Except δ ζ}

theorem bind (h : Agree related first second) (hnext : ∀ {a b}, first = .ok a → second = .ok b →
    related a b → Agree results (f a) (g b)) : Agree results (first >>= f) (second >>= g) := by
  cases h with
  | error error other => exact .error error other
  | ok hab => exact hnext rfl rfl hab

theorem mono {weaker : α → β → Prop} (h : Agree related first second)
    (hweaker : ∀ {a b}, related a b → weaker a b) : Agree weaker first second := by
  cases h with
  | error error other => exact .error error other
  | ok hab => exact .ok (hweaker hab)

theorem mapM {f : α → Except ε γ} {g : β → Except δ ζ} {values : List α} {others : List β}
    (h : List.Forall₂ related values others)
    (hnext : ∀ {a b}, related a b → Agree results (f a) (g b)) :
    Agree (List.Forall₂ results) (values.mapM f) (others.mapM g) := by
  induction h with
  | nil => exact .ok .nil
  | cons hab _ ih =>
    rw [List.mapM_cons, List.mapM_cons]
    refine (hnext hab).bind fun _ _ hfirst => ih.bind fun _ _ hrest => ?_
    exact .ok (.cons hfirst hrest)

end Agree

end Visualforce
