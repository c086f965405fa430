import TrieRebuild.Alloc.PeakAlloc

/-! The live-byte counter. `current` is at all times the owned blocks and, of each call in progress,
what it has not subtracted yet or has added already, modulo 2^64. -/
namespace TrieRebuild
open Foundation

namespace Caller

/-- What `current` holds of a call: the block it took until it is subtracted, the block it made
once it is added. -/
def counted : Caller → ℕ
  | outside => 0
  | alloc _ _ => 0
  | dealloc b => b.size.toNat
  | realloc b _ => b.size.toNat
  | freed size => size.toNat
  | moved old _ => old.toNat
  | adding _ _ => 0
  | raising _ new _ => new.size.toNat

/-- The memory of a call in progress: the block it took until it is subtracted, then the block it
made, from the system allocator's answer on. -/
def charge : Caller → ℕ
  | adding _ new => new.size.toNat
  | c => c.counted

/-- The blocks and the allocations in progress of a call; a block is gone once the system allocator
has freed it. -/
def inUse : Caller → ℕ
  | outside => 0
  | alloc _ size => size.toNat
  | dealloc b => b.size.toNat
  | realloc b newSize => b.size.toNat+newSize.toNat
  | freed _ => 0
  | moved old new => old.toNat+new.size.toNat
  | adding _ new => new.size.toNat
  | raising _ new _ => new.size.toNat

theorem counted_le_charge (c : Caller) : c.counted ≤ c.charge := by
  cases c <;> simp [counted,charge]

/-- A move changes the counter by what it changes of the heap and of the call. -/
theorem Move.current_mod {h h' : Heap} {c c' : Caller} (hm : Move h c h' c') :
    (h'.counters.current.toNat+(bytes h.owned+c.counted)) % 2^64 =
      (h.counters.current.toNat+(bytes h'.owned+c'.counted)) % 2^64 := by
  cases hm with
  | alloc | systemAlloc | systemAllocNull | systemDealloc | systemRealloc => rfl
  | dealloc b hb | realloc b newSize hb =>
    have he := bytes_erase hb
    simp only [counted]
    omega
  | systemReallocNull b newSize =>
    simp only [counted,bytes_cons]
    omega
  | subFreed size | subMoved size new =>
    have hlt := size.toNat_lt
    simp only [counted,PeakAlloc.sub,UInt64.toNat_sub]
    omega
  | fetchAdd old new =>
    simp only [counted,PeakAlloc.fetchAdd,UInt64.toNat_add]
    omega
  | fetchMax old new now =>
    simp only [counted,PeakAlloc.fetchMax,bytes_cons]
    omega

end Caller

namespace Allocator
open Caller
variable {ι : Type} [Fintype ι] {σ σ' : Allocator ι}

/-- `current` is exact up to wrapping. -/
def Counts (σ : Allocator ι) : Prop := σ.shared.counters.current.toNat = σ.total counted % 2^64

theorem counts_fresh : Counts (fresh ι) := by
  simp [Counts,fresh,total,counted]

theorem ResetStep.counts (h : ResetStep σ σ') (hσ : σ.Counts) : σ'.Counts := by
  cases h with
  | resetPeak _ => exact hσ

variable [DecidableEq ι]

theorem ThreadStep.counts (h : ThreadStep σ σ') (hσ : σ.Counts) : σ'.Counts := by
  obtain ⟨t,ht⟩ := h
  have hmod := ht.moves.current_mod
  have htotal := total_step counted ht
  have hlt := σ'.shared.counters.current.toNat_lt
  unfold Counts at hσ ⊢
  omega

theorem Reaches.counts (h : Reaches (fresh ι) σ) : σ.Counts := by
  induction h with
  | refl => exact counts_fresh
  | tail _ hs ih =>
    rcases hs with hs | hs
    · exact hs.counts ih
    · exact hs.counts ih

/-- While the memory of the owned blocks and of the calls in progress is below 2^64, `current`
does not wrap. -/
theorem Reaches.current_eq (h : Reaches (fresh ι) σ) (hlt : σ.total charge < 2^64) :
    σ.shared.counters.current.toNat = σ.total counted := by
  rw [h.counts]
  exact Nat.mod_eq_of_lt ((total_mono counted_le_charge σ).trans_lt hlt)

theorem Reaches.counted_le (h : Reaches (fresh ι) σ) (hlt : σ.total charge < 2^64) (t : ι) :
    (σ.locals t).counted ≤ σ.shared.counters.current.toNat := by
  rw [h.current_eq hlt]
  exact le_total counted σ t

omit [DecidableEq ι] in
/-- A block that is not counted yet fits beside what is. -/
theorem total_counted_add_le {t : ι} {old : Option Usize} {new : Block}
    (ht : σ.locals t = .adding old new) : σ.total counted+new.size.toNat ≤ σ.total charge := by
  have hsum := sum_add_le_sum (fun u => counted_le_charge (σ.locals u)) (i := t)
    (x := new.size.toNat) (by simp [ht,counted,charge])
  unfold total
  omega

/-- No update of `current` wraps while the owned blocks and the memory of the calls in progress
stay below 2^64, and between calls `current` is the size of the owned blocks. -/
theorem current_exact (h : Reaches (fresh ι) σ) (hlt : σ.total charge < 2^64) :
    (∀ t size, σ.locals t = .freed size → size ≤ σ.shared.counters.current) ∧
    (∀ t old new, σ.locals t = .moved old new → old ≤ σ.shared.counters.current) ∧
    (∀ t old new, σ.locals t = .adding old new →
      σ.shared.counters.current.toNat+new.size.toNat < 2^64) ∧
    (σ.Quiet → σ.shared.counters.current.toNat = bytes σ.shared.owned) := by
  refine ⟨?_,?_,?_,?_⟩
  · intro t size ht
    have hle := h.counted_le hlt t
    rw [ht] at hle
    exact UInt64.le_iff_toNat_le.mpr hle
  · intro t old new ht
    have hle := h.counted_le hlt t
    rw [ht] at hle
    exact UInt64.le_iff_toNat_le.mpr hle
  · intro t old new ht
    have hfits := total_counted_add_le ht
    rw [h.current_eq hlt]
    omega
  · intro hq
    rw [h.current_eq hlt,hq.total_eq rfl]

/-- One thread is about to uncount a block it freed, another to count one it allocated. -/
theorem current_exact_sample : ∃ σ : Allocator Bool,
    Reaches (fresh Bool) σ ∧ σ.total charge < 2^64 ∧
    σ.locals false = .freed 100 ∧ 100 ≤ σ.shared.counters.current ∧
    σ.locals true = .adding none ⟨1,50⟩ ∧ σ.shared.counters.current.toNat+50 < 2^64 := by
  have hrun : Reaches (fresh Bool) _ := Relation.ReflTransGen.refl
    |>.tail (.inl ⟨false,.move _ _ _ (.alloc _ false 100)⟩)
    |>.tail (.inl ⟨false,.move _ _ _ (.systemAlloc _ false 100 0)⟩)
    |>.tail (.inl ⟨false,.move _ _ _ (.fetchAdd _ none ⟨0,100⟩)⟩)
    |>.tail (.inl ⟨false,.move _ _ _ (.fetchMax _ none ⟨0,100⟩ _)⟩)
    |>.tail (.inl ⟨false,.move _ _ _ (.dealloc _ ⟨0,100⟩ (by decide +kernel))⟩)
    |>.tail (.inl ⟨false,.move _ _ _ (.systemDealloc _ ⟨0,100⟩)⟩)
    |>.tail (.inl ⟨true,.move _ _ _ (.alloc _ true 50)⟩)
    |>.tail (.inl ⟨true,.move _ _ _ (.systemAlloc _ true 50 1)⟩)
  refine ⟨_,hrun,?_,rfl,?_,rfl,?_⟩
  · decide +kernel
  · exact (current_exact hrun (by decide +kernel)).1 false 100 rfl
  · exact (current_exact hrun (by decide +kernel)).2.2.1 true none ⟨1,50⟩ rfl

/-- The largest size of a layout, `isize::MAX`. -/
def maxSize : Usize := 0x7FFFFFFFFFFFFFFF

/-- Blocks and allocations in progress below 2^64 are not enough: a block that is freed but still
counted makes the next `fetch_add` overflow. -/
theorem current_overflows : ∃ σ : Allocator Bool,
    Relation.ReflTransGen (fun σ τ => Step σ τ ∧ τ.total inUse < 2^64) (fresh Bool) σ ∧
    σ.locals true = .adding none ⟨2,maxSize⟩ ∧
    2^64 ≤ σ.shared.counters.current.toNat+maxSize.toNat := by
  refine ⟨_,Relation.ReflTransGen.refl
    |>.tail ⟨.inl ⟨false,.move _ _ _ (.alloc _ false maxSize)⟩,?_⟩
    |>.tail ⟨.inl ⟨false,.move _ _ _ (.systemAlloc _ false maxSize 0)⟩,?_⟩
    |>.tail ⟨.inl ⟨false,.move _ _ _ (.fetchAdd _ none ⟨0,maxSize⟩)⟩,?_⟩
    |>.tail ⟨.inl ⟨false,.move _ _ _ (.fetchMax _ none ⟨0,maxSize⟩ _)⟩,?_⟩
    |>.tail ⟨.inl ⟨false,.move _ _ _ (.alloc _ false maxSize)⟩,?_⟩
    |>.tail ⟨.inl ⟨false,.move _ _ _ (.systemAlloc _ false maxSize 1)⟩,?_⟩
    |>.tail ⟨.inl ⟨false,.move _ _ _ (.fetchAdd _ none ⟨1,maxSize⟩)⟩,?_⟩
    |>.tail ⟨.inl ⟨false,.move _ _ _ (.fetchMax _ none ⟨1,maxSize⟩ _)⟩,?_⟩
    |>.tail ⟨.inl ⟨false,.move _ _ _ (.dealloc _ ⟨0,maxSize⟩ (by decide +kernel))⟩,?_⟩
    |>.tail ⟨.inl ⟨false,.move _ _ _ (.systemDealloc _ ⟨0,maxSize⟩)⟩,?_⟩
    |>.tail ⟨.inl ⟨true,.move _ _ _ (.alloc _ false maxSize)⟩,?_⟩
    |>.tail ⟨.inl ⟨true,.move _ _ _ (.systemAlloc _ false maxSize 2)⟩,?_⟩,rfl,?_⟩
  all_goals decide +kernel

end Allocator
end TrieRebuild
