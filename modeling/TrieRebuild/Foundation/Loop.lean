import Mathlib.Data.Nat.Basic
import Mathlib.Order.Basic

/-! Loops that run until their body leaves them: the fueled run, the rule that takes it from one
iteration to the next, and the rule that it ends. -/
namespace TrieRebuild.Foundation
variable {σ ρ : Type}

/-- Run the body until it leaves the loop; none if the fuel does not last. -/
def loop (body : σ → σ ⊕ ρ) : ℕ → σ → Option ρ
  | 0,_ => none
  | fuel+1,s =>
    match body s with
    | .inl s => loop body fuel s
    | .inr r => some r

/-- Invariant rule: what every iteration that stays in the loop keeps holds at the one that leaves
it. -/
theorem loop_rule {body : σ → σ ⊕ ρ} (I : σ → Prop) {Q : ρ → Prop}
    (hstay : ∀ s t, I s → body s = .inl t → I t) (hleave : ∀ s r, I s → body s = .inr r → Q r)
    {fuel : ℕ} {s : σ} (hs : I s) {r : ρ} (h : loop body fuel s = some r) : Q r := by
  induction fuel generalizing s with
  | zero => cases h
  | succ fuel ih =>
    rw [loop] at h
    cases hb : body s with
    | inl t =>
      rw [hb] at h
      exact ih (hstay s t hs hb) h
    | inr r' =>
      rw [hb] at h
      cases h
      exact hleave s r hs hb

/-- Variant rule: if every iteration that stays in the loop keeps the invariant and lowers a
measure, fuel beyond the measure lasts. -/
theorem loop_variant {body : σ → σ ⊕ ρ} (I : σ → Prop) (μ : σ → ℕ)
    (hstay : ∀ s t, I s → body s = .inl t → I t ∧ μ t < μ s)
    {fuel : ℕ} {s : σ} (hs : I s) (hf : μ s < fuel) : ∃ r, loop body fuel s = some r := by
  induction fuel generalizing s with
  | zero => omega
  | succ fuel ih =>
    rw [loop]
    cases hb : body s with
    | inl t =>
      obtain ⟨ht,hlt⟩ := hstay s t hs hb
      exact ih ht (by omega)
    | inr r => exact ⟨r,rfl⟩

/-- A number of iterations that stay in the loop. -/
inductive Continues (body : σ → σ ⊕ ρ) : ℕ → σ → σ → Prop
  | refl (s : σ) : Continues body 0 s s
  | step {n : ℕ} {s t u : σ} (h : body s = .inl t) (hr : Continues body n t u) :
      Continues body (n+1) s u

namespace Continues
variable {body : σ → σ ⊕ ρ} {n : ℕ} {s t : σ}

theorem loop_eq (h : Continues body n s t) (fuel : ℕ) :
    loop body (fuel+n) s = loop body fuel t := by
  induction h with
  | refl => rfl
  | step h _ ih =>
    rw [← Nat.add_assoc,loop,h]
    exact ih

/-- Iterations that stay and one that leaves: any fuel beyond their number gives the result. -/
theorem loop_eq_some (h : Continues body n s t) {r : ρ} (hr : body t = .inr r) {fuel : ℕ}
    (hf : n < fuel) : loop body fuel s = some r := by
  obtain ⟨k,rfl⟩ : ∃ k, fuel = k+1+n := ⟨fuel-n-1,by omega⟩
  rw [h.loop_eq,loop,hr]

end Continues
end TrieRebuild.Foundation
