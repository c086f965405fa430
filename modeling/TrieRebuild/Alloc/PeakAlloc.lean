import TrieRebuild.Foundation.Threads
import TrieRebuild.Foundation.Words
import TrieRebuild.Trie.Types

/-! `PeakAlloc`: a global allocator that counts live bytes in two counters, and threads that run
its functions, interleaved at their atomic updates and system allocator calls. -/
namespace TrieRebuild
open Foundation

/-- The two counters. -/
structure PeakAlloc where
  current : Usize := 0
  peak : Usize := 0
  deriving DecidableEq

namespace PeakAlloc

/-- The `fetch_add` of `add`. -/
def fetchAdd (p : PeakAlloc) (bytes : Usize) : PeakAlloc := { p with current := p.current+bytes }

/-- The `fetch_max` of `add`. -/
def fetchMax (p : PeakAlloc) (now : Usize) : PeakAlloc := { p with peak := max p.peak now }

def sub (p : PeakAlloc) (bytes : Usize) : PeakAlloc := { p with current := p.current-bytes }

/-- Sets the peak to the current live size. -/
def resetPeak (p : PeakAlloc) : PeakAlloc := { p with peak := p.current }

end PeakAlloc

/-- A block the system allocator returned, with the size of its layout. -/
structure Block where
  ptr : ℕ
  size : Usize
  deriving DecidableEq

/-- The total size of some blocks. -/
def bytes (s : Multiset Block) : ℕ := (s.map fun b => b.size.toNat).sum

@[simp] theorem bytes_zero : bytes 0 = 0 := rfl

@[simp] theorem bytes_cons (b : Block) (s : Multiset Block) :
    bytes (b ::ₘ s) = b.size.toNat+bytes s := by
  simp [bytes]

theorem bytes_erase {b : Block} {s : Multiset Block} (hb : b ∈ s) :
    b.size.toNat+bytes (s.erase b) = bytes s := by
  rw [← bytes_cons,Multiset.cons_erase hb]

/-- The counters, and the blocks that are allocated and not inside an allocator call. -/
structure Heap where
  counters : PeakAlloc := {}
  owned : Multiset Block := 0

/-- Where a thread stands: outside; before the system call of `alloc` or `alloc_zeroed`, `dealloc`
and `realloc`; with its block freed, before `sub`; with its block moved, before `sub`; and before
the two updates of `add`, which counts a new block and may follow a `sub` of an old size. -/
inductive Caller
  | outside
  | alloc (zeroed : Bool) (size : Usize)
  | dealloc (b : Block)
  | realloc (b : Block) (newSize : Usize)
  | freed (size : Usize)
  | moved (old : Usize) (new : Block)
  | adding (old : Option Usize) (new : Block)
  | raising (old : Option Usize) (new : Block) (now : Usize)

/-- One move of one thread. The system allocator may fail; a block is taken out of the owned ones
by the call that frees or reallocates it, and is owned once the call that made it returns. -/
inductive Caller.Move : Heap → Caller → Heap → Caller → Prop
  | alloc (h : Heap) (zeroed : Bool) (size : Usize) : Move h .outside h (.alloc zeroed size)
  | dealloc (h : Heap) (b : Block) (hb : b ∈ h.owned) :
      Move h .outside { h with owned := h.owned.erase b } (.dealloc b)
  | realloc (h : Heap) (b : Block) (newSize : Usize) (hb : b ∈ h.owned) :
      Move h .outside { h with owned := h.owned.erase b } (.realloc b newSize)
  | systemAlloc (h : Heap) (zeroed : Bool) (size : Usize) (ptr : ℕ) :
      Move h (.alloc zeroed size) h (.adding none ⟨ptr,size⟩)
  | systemAllocNull (h : Heap) (zeroed : Bool) (size : Usize) :
      Move h (.alloc zeroed size) h .outside
  | systemDealloc (h : Heap) (b : Block) : Move h (.dealloc b) h (.freed b.size)
  | systemRealloc (h : Heap) (b : Block) (newSize : Usize) (ptr : ℕ) :
      Move h (.realloc b newSize) h (.moved b.size ⟨ptr,newSize⟩)
  | systemReallocNull (h : Heap) (b : Block) (newSize : Usize) :
      Move h (.realloc b newSize) { h with owned := b ::ₘ h.owned } .outside
  | subFreed (h : Heap) (size : Usize) :
      Move h (.freed size) { h with counters := h.counters.sub size } .outside
  | subMoved (h : Heap) (old : Usize) (new : Block) :
      Move h (.moved old new) { h with counters := h.counters.sub old } (.adding (some old) new)
  | fetchAdd (h : Heap) (old : Option Usize) (new : Block) :
      Move h (.adding old new) { h with counters := h.counters.fetchAdd new.size }
        (.raising old new (h.counters.current+new.size))
  | fetchMax (h : Heap) (old : Option Usize) (new : Block) (now : Usize) :
      Move h (.raising old new now)
        { counters := h.counters.fetchMax now, owned := new ::ₘ h.owned } .outside

/-- The allocator with the threads that use it. -/
abbrev Allocator (ι : Type) := Threads ι Heap Caller

namespace Allocator
variable {ι : Type} {σ σ' : Allocator ι}

/-- No call is in progress. -/
def Quiet (σ : Allocator ι) : Prop := ∀ t, σ.locals t = .outside

/-- A fresh allocator. -/
def fresh (ι : Type) : Allocator ι := ⟨{},fun _ => .outside⟩

section Total
variable [Fintype ι]

/-- The sizes of the owned blocks, and what each call in progress stands for. -/
def total (inCall : Caller → ℕ) (σ : Allocator ι) : ℕ :=
  bytes σ.shared.owned+∑ t, inCall (σ.locals t)

theorem total_mono {f g : Caller → ℕ} (h : ∀ c, f c ≤ g c) (σ : Allocator ι) :
    σ.total f ≤ σ.total g := by
  have hsum := Finset.sum_le_sum fun t (_ : t ∈ Finset.univ) => h (σ.locals t)
  unfold total
  omega

theorem le_total (f : Caller → ℕ) (σ : Allocator ι) (t : ι) : f (σ.locals t) ≤ σ.total f := by
  have hsum := Finset.single_le_sum (fun u _ => Nat.zero_le (f (σ.locals u))) (Finset.mem_univ t)
  unfold total
  omega

/-- Without a call in progress a total is that of the owned blocks. -/
theorem Quiet.total_eq (h : σ.Quiet) {f : Caller → ℕ} (hf : f .outside = 0) :
    σ.total f = bytes σ.shared.owned := by
  simp [total,h _,hf]

end Total

/-- `reset_peak`, called while no other call is in progress. -/
inductive ResetStep : Allocator ι → Allocator ι → Prop
  | resetPeak (σ : Allocator ι) (h : σ.Quiet) :
      ResetStep σ ⟨{ σ.shared with counters := σ.shared.counters.resetPeak },σ.locals⟩

variable [DecidableEq ι]

/-- A move of some thread. -/
def ThreadStep (σ σ' : Allocator ι) : Prop := ∃ t, Threads.Step Caller.Move t σ σ'

def Step (σ σ' : Allocator ι) : Prop := ThreadStep σ σ' ∨ ResetStep σ σ'

abbrev Reaches : Allocator ι → Allocator ι → Prop := Relation.ReflTransGen Step

/-- A step changes a total by what its move changes. -/
theorem total_step [Fintype ι] (inCall : Caller → ℕ) {t : ι}
    (h : Threads.Step Caller.Move t σ σ') :
    σ'.total inCall+(bytes σ.shared.owned+inCall (σ.locals t)) =
      σ.total inCall+(bytes σ'.shared.owned+inCall (σ'.locals t)) := by
  have hs := h.sum_add inCall
  unfold total
  omega

end Allocator
end TrieRebuild
