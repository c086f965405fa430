import Mathlib.Logic.Relation
import Mathlib.Order.Basic

/-! Systems that drain: their steps use up a measure, and a state in which none is possible is
done. -/
namespace TrieRebuild.Foundation
variable {σ : Type*}

/-- Runs of a given number of steps. -/
inductive StepsIn (step : σ → σ → Prop) (s : σ) : ℕ → σ → Prop
  | refl : StepsIn step s 0 s
  | tail {n : ℕ} {t u : σ} (hr : StepsIn step s n t) (h : step t u) : StepsIn step s (n+1) u

theorem StepsIn.reaches {step : σ → σ → Prop} {n : ℕ} {s t : σ} (h : StepsIn step s n t) :
    Relation.ReflTransGen step s t := by
  induction h with
  | refl => exact .refl
  | tail _ h ih => exact ih.tail h

/-- Steps keep the invariant and lower the measure, and only done states are without a step. -/
structure Drains (step : σ → σ → Prop) (inv done : σ → Prop) (μ : σ → ℕ) : Prop where
  keeps : ∀ {s t}, inv s → step s t → inv t
  lowers : ∀ {s t}, inv s → step s t → μ t < μ s
  progress : ∀ {s}, inv s → ¬done s → ∃ t, step s t

namespace Drains
variable {step : σ → σ → Prop} {inv done : σ → Prop} {μ : σ → ℕ}

theorem inv_of_steps (hd : Drains step inv done μ) {n : ℕ} {s t : σ} (hs : inv s)
    (h : StepsIn step s n t) : inv t := by
  induction h with
  | refl => exact hs
  | tail _ h ih => exact hd.keeps ih h

/-- A run is no longer than the measure it has used up. -/
theorem length_add_le (hd : Drains step inv done μ) {n : ℕ} {s t : σ} (hs : inv s)
    (h : StepsIn step s n t) : n+μ t ≤ μ s := by
  induction h with
  | refl => omega
  | tail hr h ih =>
    have hlt := hd.lowers (hd.inv_of_steps hs hr) h
    omega

/-- A run that cannot go on is done. -/
theorem done_of_stuck (hd : Drains step inv done μ) {n : ℕ} {s t : σ} (hs : inv s)
    (h : StepsIn step s n t) (hstuck : ∀ u, ¬step t u) : done t := by
  by_contra hnot
  obtain ⟨u,hu⟩ := hd.progress (hd.inv_of_steps hs h) hnot
  exact hstuck u hu

/-- Some run gets done. -/
theorem exists_done (hd : Drains step inv done μ) {s : σ} (hs : inv s) :
    ∃ n t, StepsIn step s n t ∧ done t := by
  suffices h : ∀ m n t, StepsIn step s n t → μ t ≤ m → ∃ n' u, StepsIn step s n' u ∧ done u by
    exact h (μ s) 0 s .refl (Nat.le_refl _)
  intro m
  induction m with
  | zero =>
    intro n t hr hm
    refine ⟨n,t,hr,?_⟩
    by_contra hnot
    obtain ⟨u,hu⟩ := hd.progress (hd.inv_of_steps hs hr) hnot
    have hlt := hd.lowers (hd.inv_of_steps hs hr) hu
    omega
  | succ m ih =>
    intro n t hr hm
    by_cases hdone : done t
    · exact ⟨n,t,hr,hdone⟩
    · obtain ⟨u,hu⟩ := hd.progress (hd.inv_of_steps hs hr) hdone
      have hlt := hd.lowers (hd.inv_of_steps hs hr) hu
      exact ih (n+1) u (hr.tail hu) (by omega)

end Drains
end TrieRebuild.Foundation
