import TrieRebuild.Alloc.LiveBytes

/-! The reported peak. A `realloc` subtracts its old size before it adds the new one, so what other
calls add in between is measured without its block. The peak covers the live blocks in every run
that has no such addition. -/
namespace TrieRebuild
open Foundation

namespace Caller

/-- The live block of a call: only that of a `realloc`, at the smaller of its two sizes. -/
def live : Caller → ℕ
  | realloc b newSize => min b.size.toNat newSize.toNat
  | moved old new => min old.toNat new.size.toNat
  | adding (some old) new => min old.toNat new.size.toNat
  | raising (some old) new _ => min old.toNat new.size.toNat
  | _ => 0

/-- A `realloc` between its `sub` and its `add`. -/
def isBetween : Caller → Bool
  | adding (some _) _ => true
  | _ => false

/-- What `current` lacks of the live block: all of it, between the `sub` and the `add`. -/
def uncounted : Caller → ℕ
  | adding (some old) new => min old.toNat new.size.toNat
  | _ => 0

/-- A bound of the live block that no move but a `fetch_add` raises. -/
def held (c : Caller) : ℕ := c.counted+c.uncounted

theorem live_le_held (c : Caller) : c.live ≤ c.held := by
  cases c with
  | adding old new | raising old new now =>
    cases old <;> simp [live,held,counted,uncounted]
  | _ => simp [live,held,counted,uncounted]

theorem held_eq_counted {c : Caller} (h : c.isBetween = false) : c.held = c.counted := by
  cases c with
  | adding old new =>
    cases old with
    | none => rfl
    | some old => cases h
  | _ => rfl

theorem counted_le_held (c : Caller) : c.counted ≤ c.held := Nat.le_add_right _ _

/-- A `fetch_add` takes note of the new value of `current`; no other move raises what is counted or
what is held. -/
theorem Move.raises {h h' : Heap} {c c' : Caller} (hm : Move h c h' c') :
    (bytes h'.owned+c'.counted ≤ bytes h.owned+c.counted ∧
      bytes h'.owned+c'.held ≤ bytes h.owned+c.held) ∨
    ∃ old new, c = .adding old new ∧ h'.owned = h.owned ∧
      c' = .raising old new (h.counters.current+new.size) := by
  cases hm with
  | fetchAdd old new => exact .inr ⟨old,new,rfl,rfl,rfl⟩
  | alloc | systemAlloc | systemAllocNull | systemDealloc | systemRealloc =>
    exact .inl ⟨le_refl _,le_refl _⟩
  | dealloc b hb | realloc b newSize hb =>
    have he := bytes_erase hb
    simp only [held,counted,uncounted]
    omega
  | systemReallocNull b newSize =>
    simp only [held,counted,uncounted,bytes_cons]
    omega
  | subFreed size | subMoved old new =>
    simp only [held,counted,uncounted]
    omega
  | fetchMax old new now =>
    simp only [held,counted,uncounted,bytes_cons]
    omega

theorem Move.peak_le {h h' : Heap} {c c' : Caller} (hm : Move h c h' c') :
    h.counters.peak.toNat ≤ h'.counters.peak.toNat := by
  cases hm with
  | fetchMax old new now =>
    simp only [PeakAlloc.fetchMax,toNat_max]
    exact le_max_left _ _
  | _ => exact le_refl _

/-- After the `fetch_add` only the `fetch_max` can follow. -/
theorem Move.raised {h h' : Heap} {c c' : Caller} (hm : Move h c h' c') {old : Option Usize}
    {new : Block} {now : Usize} (hc : c = .raising old new now) :
    now.toNat ≤ h'.counters.peak.toNat := by
  subst hc
  cases hm with
  | fetchMax =>
    simp only [PeakAlloc.fetchMax,toNat_max]
    exact le_max_right _ _

end Caller

namespace Allocator
open Caller
variable {ι : Type} {σ σ' τ : Allocator ι}

/-- The move of a thread does not wrap `current`, and does not add to it while another thread's
`realloc` is between its `sub` and its `add`. -/
def CountsAlone (σ : Allocator ι) (t : ι) : Prop :=
  match σ.locals t with
  | .adding _ new => σ.shared.counters.current.toNat+new.size.toNat < 2^64 ∧
      ∀ u, u ≠ t → (σ.locals u).isBetween = false
  | _ => True

/-- The peak covers a size, or some call that does is about to record it. -/
def Covers (σ : Allocator ι) (n : ℕ) : Prop :=
  n ≤ σ.shared.counters.peak.toNat ∨
  ∃ t old new now, σ.locals t = .raising old new now ∧ n ≤ now.toNat

theorem Covers.mono {m n : ℕ} (h : σ.Covers n) (hmn : m ≤ n) : σ.Covers m := by
  rcases h with h | ⟨t,old,new,now,ht,h⟩
  · exact .inl (hmn.trans h)
  · exact .inr ⟨t,old,new,now,ht,hmn.trans h⟩

/-- Between calls it is the peak that covers. -/
theorem Covers.le_peak {n : ℕ} (h : σ.Covers n) (hq : σ.Quiet) :
    n ≤ σ.shared.counters.peak.toNat := by
  rcases h with h | ⟨t,old,new,now,ht,-⟩
  · exact h
  · rw [hq t] at ht
    cases ht

variable [Fintype ι]

/-- `current` is exact and what the calls hold is covered. -/
structure Measured (σ : Allocator ι) : Prop where
  exact : σ.shared.counters.current.toNat = σ.total counted
  covers : σ.Covers (σ.total held)

theorem measured_fresh : Measured (fresh ι) := by
  constructor
  · simp [fresh,total,counted]
  · exact .inl (by simp [fresh,total,held,counted,uncounted])

/-- Nothing is held uncounted but by a `realloc` before its `add`. -/
theorem total_held_eq {t : ι} (ht : (σ.locals t).isBetween = false)
    (h : ∀ u, u ≠ t → (σ.locals u).isBetween = false) : σ.total held = σ.total counted := by
  unfold total
  congr 1
  apply Finset.sum_congr rfl
  intro u _
  by_cases hu : u = t
  · exact hu ▸ held_eq_counted ht
  · exact held_eq_counted (h u hu)

theorem Measured.reset (hσ : σ.Measured) (h : ResetStep σ σ') : σ'.Measured := by
  cases h with
  | resetPeak hq =>
    refine ⟨hσ.exact,.inl ?_⟩
    have hheld : σ.total held = σ.total counted := by rw [hq.total_eq rfl,hq.total_eq rfl]
    exact (hheld.trans hσ.exact.symm).le

variable [DecidableEq ι]

omit [Fintype ι] in
/-- What is covered stays covered. -/
theorem Covers.step {n : ℕ} {t : ι} (hσ : σ.Covers n) (h : Threads.Step Move t σ σ') :
    σ'.Covers n := by
  rcases hσ with hσ | ⟨u,old,new,now,hu,hn⟩
  · exact .inl (hσ.trans h.moves.peak_le)
  · by_cases hut : u = t
    · subst hut
      exact .inl (hn.trans (h.moves.raised hu))
    · refine .inr ⟨u,old,new,now,?_,hn⟩
      rw [h.frame hut]
      exact hu

theorem Measured.step {t : ι} (hσ : σ.Measured) (ht : CountsAlone σ t)
    (h : Threads.Step Move t σ σ') : σ'.Measured := by
  have hcounted := total_step counted h
  have hmod := h.moves.current_mod
  have hlt := σ.shared.counters.current.toNat_lt
  have hlt' := σ'.shared.counters.current.toNat_lt
  have hexact := hσ.exact
  rcases h.moves.raises with ⟨hle,hheld⟩ | ⟨old,new,hadd,howned,hnow⟩
  · constructor
    · omega
    · apply (hσ.covers.step h).mono
      have htotal := total_step held h
      omega
  · rw [CountsAlone,hadd] at ht
    obtain ⟨hfits,halone⟩ := ht
    rw [hadd,hnow,howned] at hcounted hmod
    simp only [counted] at hcounted hmod
    have hexact' : σ'.shared.counters.current.toNat = σ'.total counted := by omega
    have heq : σ'.total held = σ'.total counted := by
      apply total_held_eq (by rw [hnow]; rfl)
      intro u hu
      rw [h.frame hu]
      exact halone u hu
    refine ⟨hexact',.inr ⟨t,old,new,_,hnow,?_⟩⟩
    rw [heq,UInt64.toNat_add,Nat.mod_eq_of_lt hfits]
    omega

/-- A thread's move that counts alone. -/
def CountedThreadStep (σ σ' : Allocator ι) : Prop :=
  ∃ t, CountsAlone σ t ∧ Threads.Step Move t σ σ'

def CountedStep (σ σ' : Allocator ι) : Prop := CountedThreadStep σ σ' ∨ ResetStep σ σ'

theorem Measured.run (h : Relation.ReflTransGen CountedStep (fresh ι) σ) : σ.Measured := by
  induction h with
  | refl => exact measured_fresh
  | tail _ hs ih =>
    rcases hs with ⟨t,ht,hs⟩ | hs
    · exact ih.step ht hs
    · exact ih.reset hs

omit [Fintype ι] in
/-- Moves of the threads keep a size covered. -/
theorem Covers.run {n : ℕ} (hτ : τ.Covers n) (h : Relation.ReflTransGen CountedThreadStep τ σ) :
    σ.Covers n := by
  induction h with
  | refl => exact hτ
  | tail _ hs ih =>
    obtain ⟨t,-,hs⟩ := hs
    exact ih.step hs

/-- In a run whose moves count alone, the peak reported between calls is at least `current` and
at least the live size of every moment since the last reset. -/
theorem peak_covers_live (hτ : Relation.ReflTransGen CountedStep (fresh ι) τ)
    (hσ : Relation.ReflTransGen CountedThreadStep τ σ) (hq : σ.Quiet) :
    τ.total live ≤ σ.shared.counters.peak.toNat ∧
    σ.shared.counters.current ≤ σ.shared.counters.peak := by
  constructor
  · have hcovers := (Measured.run hτ).covers.run hσ
    exact (hcovers.mono (total_mono live_le_held τ)).le_peak hq
  · have hrun := hτ.trans (Relation.ReflTransGen.mono (fun _ _ => Or.inl) _ _ hσ)
    have hmeasured := Measured.run hrun
    apply UInt64.le_iff_toNat_le.mpr
    rw [hmeasured.exact]
    exact (hmeasured.covers.mono (total_mono counted_le_held σ)).le_peak hq

/-- One thread moves a block while another allocates one and frees it again. -/
theorem peak_covers_live_sample : ∃ τ σ : Allocator Bool,
    Relation.ReflTransGen CountedStep (fresh Bool) τ ∧
    Relation.ReflTransGen CountedThreadStep τ σ ∧ σ.Quiet ∧ τ.total live = 150 ∧
    150 ≤ σ.shared.counters.peak.toNat ∧ σ.shared.counters.current ≤ σ.shared.counters.peak := by
  have hrun : ∃ τ : Allocator Bool, Relation.ReflTransGen CountedStep (fresh Bool) τ ∧
      τ.total live = 150 ∧ ∃ σ, Relation.ReflTransGen CountedThreadStep τ σ ∧ σ.Quiet := by
    refine ⟨_,Relation.ReflTransGen.refl
      |>.tail (.inl ⟨false,by trivial,.move _ _ _ (.alloc _ false 100)⟩)
      |>.tail (.inl ⟨false,by trivial,.move _ _ _ (.systemAlloc _ false 100 0)⟩)
      |>.tail (.inl ⟨false,by exact ⟨by decide +kernel,by decide +kernel⟩,
        .move _ _ _ (.fetchAdd _ none ⟨0,100⟩)⟩)
      |>.tail (.inl ⟨false,by trivial,.move _ _ _ (.fetchMax _ none ⟨0,100⟩ _)⟩)
      |>.tail (.inr (.resetPeak _ fun t => by cases t <;> rfl))
      |>.tail (.inl ⟨false,by trivial,.move _ _ _ (.realloc _ ⟨0,100⟩ 120 (by decide +kernel))⟩)
      |>.tail (.inl ⟨true,by trivial,.move _ _ _ (.alloc _ true 50)⟩)
      |>.tail (.inl ⟨true,by trivial,.move _ _ _ (.systemAlloc _ true 50 2)⟩)
      |>.tail (.inl ⟨false,by trivial,.move _ _ _ (.systemRealloc _ ⟨0,100⟩ 120 1)⟩)
      |>.tail (.inl ⟨true,by exact ⟨by decide +kernel,by decide +kernel⟩,
        .move _ _ _ (.fetchAdd _ none ⟨2,50⟩)⟩)
      |>.tail (.inl ⟨true,by trivial,.move _ _ _ (.fetchMax _ none ⟨2,50⟩ _)⟩),?_,_,
      Relation.ReflTransGen.refl
      |>.tail ⟨false,by trivial,.move _ _ _ (.subMoved _ 100 ⟨1,120⟩)⟩
      |>.tail ⟨true,by trivial,.move _ _ _ (.dealloc _ ⟨2,50⟩ (by decide +kernel))⟩
      |>.tail ⟨true,by trivial,.move _ _ _ (.systemDealloc _ ⟨2,50⟩)⟩
      |>.tail ⟨true,by trivial,.move _ _ _ (.subFreed _ 50)⟩
      |>.tail ⟨false,by exact ⟨by decide +kernel,by decide +kernel⟩,
        .move _ _ _ (.fetchAdd _ (some 100) ⟨1,120⟩)⟩
      |>.tail ⟨false,by trivial,.move _ _ _ (.fetchMax _ (some 100) ⟨1,120⟩ _)⟩,?_⟩
    · decide +kernel
    · intro t
      cases t <;> rfl
  obtain ⟨τ,hτ,hlive,σ,hσ,hq⟩ := hrun
  have hcovers := peak_covers_live hτ hσ hq
  exact ⟨τ,σ,hτ,hσ,hq,hlive,hlive ▸ hcovers.1,hcovers.2⟩

/-- A thread shrinks the measured size by the old size of a block it moves, and another allocates
and frees meanwhile: 150 bytes are live, and the reported peak is 120. -/
theorem peak_misses_live : ∃ τ σ : Allocator Bool, Reaches (fresh Bool) τ ∧
    Relation.ReflTransGen ThreadStep τ σ ∧ σ.Quiet ∧
    σ.shared.counters.peak.toNat < τ.total live := by
  have hτ : Reaches (fresh Bool) _ := Relation.ReflTransGen.refl
    |>.tail (.inl ⟨false,.move _ _ _ (.alloc _ false 100)⟩)
    |>.tail (.inl ⟨false,.move _ _ _ (.systemAlloc _ false 100 0)⟩)
    |>.tail (.inl ⟨false,.move _ _ _ (.fetchAdd _ none ⟨0,100⟩)⟩)
    |>.tail (.inl ⟨false,.move _ _ _ (.fetchMax _ none ⟨0,100⟩ _)⟩)
    |>.tail (.inr (.resetPeak _ fun t => by cases t <;> rfl))
    |>.tail (.inl ⟨false,.move _ _ _ (.realloc _ ⟨0,100⟩ 120 (by decide +kernel))⟩)
    |>.tail (.inl ⟨false,.move _ _ _ (.systemRealloc _ ⟨0,100⟩ 120 1)⟩)
    |>.tail (.inl ⟨false,.move _ _ _ (.subMoved _ 100 ⟨1,120⟩)⟩)
    |>.tail (.inl ⟨true,.move _ _ _ (.alloc _ false 50)⟩)
    |>.tail (.inl ⟨true,.move _ _ _ (.systemAlloc _ false 50 2)⟩)
    |>.tail (.inl ⟨true,.move _ _ _ (.fetchAdd _ none ⟨2,50⟩)⟩)
    |>.tail (.inl ⟨true,.move _ _ _ (.fetchMax _ none ⟨2,50⟩ _)⟩)
  refine ⟨_,_,hτ,Relation.ReflTransGen.refl
    |>.tail ⟨true,.move _ _ _ (.dealloc _ ⟨2,50⟩ (by decide +kernel))⟩
    |>.tail ⟨true,.move _ _ _ (.systemDealloc _ ⟨2,50⟩)⟩
    |>.tail ⟨true,.move _ _ _ (.subFreed _ 50)⟩
    |>.tail ⟨false,.move _ _ _ (.fetchAdd _ (some 100) ⟨1,120⟩)⟩
    |>.tail ⟨false,.move _ _ _ (.fetchMax _ (some 100) ⟨1,120⟩ _)⟩,?_,?_⟩
  · intro t
    cases t <;> rfl
  · decide +kernel

end Allocator
end TrieRebuild
