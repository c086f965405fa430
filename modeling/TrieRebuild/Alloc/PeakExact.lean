import TrieRebuild.Alloc.Peak

/-! The peak as the counter's own maximum: read between calls, it is the largest value `current` has
had since the last reset, in every interleaving that does not wrap. -/
namespace TrieRebuild
open Foundation

namespace Caller

/-- No move but a `fetch_add` raises `current`, as long as what is subtracted was counted. -/
theorem Move.current_le {h h' : Heap} {c c' : Caller} (hm : Move h c h' c')
    (hc : c.counted ≤ h.counters.current.toNat) :
    h'.counters.current.toNat ≤ h.counters.current.toNat ∨
    ∃ old new, c' = .raising old new h'.counters.current := by
  cases hm with
  | fetchAdd old new => exact .inr ⟨old,new,rfl⟩
  | subFreed size | subMoved size new =>
    refine .inl ?_
    simp only [counted] at hc
    have hle := UInt64.le_iff_toNat_le.mpr hc
    simp only [PeakAlloc.sub,UInt64.toNat_sub_of_le _ _ hle]
    omega
  | _ => exact .inl le_rfl

/-- The value a call is about to record is the one its `fetch_add` made. -/
theorem Move.raising {h h' : Heap} {c c' : Caller} (hm : Move h c h' c') {old : Option Usize}
    {new : Block} {now : Usize} (hc : c' = .raising old new now) :
    now = h'.counters.current := by
  cases hm with
  | fetchAdd => cases hc; rfl
  | _ => cases hc

/-- The peak moves only to a recorded value. -/
theorem Move.peak_eq {h h' : Heap} {c c' : Caller} (hm : Move h c h' c') :
    h'.counters.peak = h.counters.peak ∨
    ∃ old new now, c = .raising old new now ∧ h'.counters.peak = now := by
  cases hm with
  | fetchMax old new now =>
    by_cases hle : h.counters.peak ≤ now
    · exact .inr ⟨old,new,now,rfl,by simp [PeakAlloc.fetchMax,max,hle]⟩
    · exact .inl (by simp [PeakAlloc.fetchMax,max,hle])
  | _ => exact .inl rfl

end Caller

namespace Allocator
open Caller
variable {ι : Type} [Fintype ι] [DecidableEq ι] {σ₀ τ σ σ' : Allocator ι}
variable {moments : List (Allocator ι)}

/-- A thread's move while the memory of the blocks and of the calls in progress is below 2^64. -/
def FitsStep (σ σ' : Allocator ι) : Prop := ThreadStep σ σ' ∧ σ.total charge < 2^64

/-- A run of such moves with the states it goes through, first and last included. -/
inductive FitsRun (τ : Allocator ι) : List (Allocator ι) → Allocator ι → Prop
  | refl : FitsRun τ [τ] τ
  | tail {moments : List (Allocator ι)} {σ σ' : Allocator ι} (hr : FitsRun τ moments σ)
      (hs : FitsStep σ σ') : FitsRun τ (moments ++ [σ']) σ'

theorem FitsRun.reaches (h : FitsRun τ moments σ) (hτ : Reaches (fresh ι) τ) :
    Reaches (fresh ι) σ := by
  induction h with
  | refl => exact hτ
  | tail _ hs ih => exact ih.tail (.inl hs.1)

theorem FitsRun.last_mem (h : FitsRun τ moments σ) : σ ∈ moments := by
  cases h with
  | refl => exact List.mem_singleton_self _
  | tail hr hs => exact List.mem_append_right _ (List.mem_singleton_self _)

omit [Fintype ι] [DecidableEq ι] in
/-- After a reset the peak is `current`, and no call is in progress. -/
theorem ResetStep.spec (h : ResetStep σ₀ τ) :
    τ.Quiet ∧ τ.shared.counters.peak = τ.shared.counters.current := by
  cases h with
  | resetPeak hq => exact ⟨hq,rfl⟩

/-- What `current` has been since the reset is covered. -/
theorem FitsRun.covers_current (h : FitsRun τ moments σ) (hτ : Reaches (fresh ι) τ)
    (hpeak : τ.shared.counters.peak = τ.shared.counters.current) :
    ∀ ρ ∈ moments, σ.Covers ρ.shared.counters.current.toNat := by
  induction h with
  | refl =>
    intro ρ hρ
    rw [List.mem_singleton.mp hρ]
    exact .inl (by rw [hpeak])
  | @tail moments σ σ' hr hs ih =>
    obtain ⟨⟨t,hs⟩,hlt⟩ := hs
    intro ρ hρ
    rcases List.mem_append.mp hρ with hρ | hρ
    · exact (ih ρ hρ).step hs
    · rw [List.mem_singleton.mp hρ]
      rcases hs.moves.current_le ((hr.reaches hτ).counted_le hlt t) with hle | ⟨old,new,hnow⟩
      · exact ((ih σ hr.last_mem).step hs).mono hle
      · exact .inr ⟨t,old,new,_,hnow,le_rfl⟩

/-- The peak, and each value about to be recorded, is one that `current` has had. -/
theorem FitsRun.attained (h : FitsRun τ moments σ) (hq : τ.Quiet)
    (hpeak : τ.shared.counters.peak = τ.shared.counters.current) :
    (∃ ρ ∈ moments, ρ.shared.counters.current = σ.shared.counters.peak) ∧
    ∀ t old new now, σ.locals t = .raising old new now →
      ∃ ρ ∈ moments, ρ.shared.counters.current = now := by
  induction h with
  | refl =>
    refine ⟨⟨τ,List.mem_singleton_self _,hpeak.symm⟩,fun t old new now ht => ?_⟩
    rw [hq t] at ht
    cases ht
  | @tail moments σ σ' hr hs ih =>
    obtain ⟨hp,hraising⟩ := ih
    have hlater : ∀ n, (∃ ρ ∈ moments, ρ.shared.counters.current = n) →
        ∃ ρ ∈ moments ++ [σ'], ρ.shared.counters.current = n := by
      intro n hn
      obtain ⟨ρ,hρ,hn⟩ := hn
      exact ⟨ρ,List.mem_append_left _ hρ,hn⟩
    obtain ⟨⟨t,hs⟩,-⟩ := hs
    constructor
    · rcases hs.moves.peak_eq with he | ⟨old,new,now,hc,he⟩
      · rw [he]
        exact hlater _ hp
      · rw [he]
        exact hlater _ (hraising t old new now hc)
    · intro u old new now hu
      by_cases hut : u = t
      · subst hut
        exact ⟨σ',List.mem_append_right _ (List.mem_singleton_self _),(hs.moves.raising hu).symm⟩
      · rw [hs.frame hut] at hu
        exact hlater _ (hraising u old new now hu)

/-- Between calls the reported peak is the largest value `current` has had since the last reset:
it is at least the value at each moment of the run, and the value at one of them. -/
theorem peak_exact (hσ₀ : Reaches (fresh ι) σ₀) (hreset : ResetStep σ₀ τ)
    (hrun : FitsRun τ moments σ) (hq : σ.Quiet) :
    (∀ ρ ∈ moments, ρ.shared.counters.current ≤ σ.shared.counters.peak) ∧
    ∃ ρ ∈ moments, ρ.shared.counters.current = σ.shared.counters.peak := by
  obtain ⟨hquiet,hpeak⟩ := hreset.spec
  have hcovers := hrun.covers_current (hσ₀.tail (.inr hreset)) hpeak
  exact ⟨fun ρ hρ => UInt64.le_iff_toNat_le.mpr ((hcovers ρ hρ).le_peak hq),
    (hrun.attained hquiet hpeak).1⟩

/-- A block of 100 bytes before the reset and one of 50 that is freed again after it. -/
theorem peak_exact_sample : ∃ (τ σ : Allocator Unit) (moments : List (Allocator Unit)),
    FitsRun τ moments σ ∧ σ.Quiet ∧ moments.length = 8 ∧
    σ.shared.counters.current = 100 ∧ σ.shared.counters.peak = 150 ∧
    (∀ ρ ∈ moments, ρ.shared.counters.current ≤ 150) ∧
    ∃ ρ ∈ moments, ρ.shared.counters.current = 150 := by
  have hrun : ∃ σ₀ : Allocator Unit, Reaches (fresh Unit) σ₀ ∧ ∃ τ, ResetStep σ₀ τ ∧
      ∃ moments σ, FitsRun τ moments σ ∧ σ.Quiet ∧ moments.length = 8 ∧
        σ.shared.counters.current = 100 ∧ σ.shared.counters.peak = 150 := by
    refine ⟨_,Relation.ReflTransGen.refl
      |>.tail (.inl ⟨(),.move _ _ _ (.alloc _ false 100)⟩)
      |>.tail (.inl ⟨(),.move _ _ _ (.systemAlloc _ false 100 0)⟩)
      |>.tail (.inl ⟨(),.move _ _ _ (.fetchAdd _ none ⟨0,100⟩)⟩)
      |>.tail (.inl ⟨(),.move _ _ _ (.fetchMax _ none ⟨0,100⟩ _)⟩),_,
      .resetPeak _ (fun _ => rfl),_,_,FitsRun.refl
      |>.tail ⟨⟨(),.move _ _ _ (.alloc _ true 50)⟩,?_⟩
      |>.tail ⟨⟨(),.move _ _ _ (.systemAlloc _ true 50 1)⟩,?_⟩
      |>.tail ⟨⟨(),.move _ _ _ (.fetchAdd _ none ⟨1,50⟩)⟩,?_⟩
      |>.tail ⟨⟨(),.move _ _ _ (.fetchMax _ none ⟨1,50⟩ _)⟩,?_⟩
      |>.tail ⟨⟨(),.move _ _ _ (.dealloc _ ⟨1,50⟩ (by decide +kernel))⟩,?_⟩
      |>.tail ⟨⟨(),.move _ _ _ (.systemDealloc _ ⟨1,50⟩)⟩,?_⟩
      |>.tail ⟨⟨(),.move _ _ _ (.subFreed _ 50)⟩,?_⟩,fun _ => rfl,rfl,?_,?_⟩
    all_goals decide +kernel
  obtain ⟨σ₀,hσ₀,τ,hreset,moments,σ,hσ,hq,hlen,hcurrent,hpeak⟩ := hrun
  obtain ⟨hle,hattained⟩ := peak_exact hσ₀ hreset hσ hq
  rw [hpeak] at hle hattained
  exact ⟨τ,σ,moments,hσ,hq,hlen,hcurrent,hpeak,hle,hattained⟩

end Allocator
end TrieRebuild
