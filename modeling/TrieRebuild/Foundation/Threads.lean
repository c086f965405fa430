import TrieRebuild.Foundation.Parts
import Mathlib.Logic.Relation

/-! Threads with local states over one shared state. A step is one thread's move, which sees the
shared state and its own local one and leaves the other threads alone. -/
namespace TrieRebuild.Foundation
variable {ι S L M : Type*} [DecidableEq ι]

/-- A shared state and each thread's own. -/
structure Threads (ι S L : Type*) where
  shared : S
  locals : ι → L

namespace Threads

/-- One move of one thread. -/
inductive Step (move : S → L → S → L → Prop) (t : ι) : Threads ι S L → Threads ι S L → Prop
  | move (σ : Threads ι S L) (s : S) (l : L) (h : move σ.shared (σ.locals t) s l) :
      Step move t σ ⟨s,Function.update σ.locals t l⟩

variable {move : S → L → S → L → Prop} {t : ι} {σ σ' : Threads ι S L}

theorem Step.moves (h : Step move t σ σ') :
    move σ.shared (σ.locals t) σ'.shared (σ'.locals t) := by
  cases h with
  | move s l h =>
    dsimp only
    rw [Function.update_self]
    exact h

/-- A move of a thread whose local state has been updated before. -/
theorem Step.of_update {locals : ι → L} {s s' : S} {l l' : L} (h : move s l s' l') :
    Step move t ⟨s,Function.update locals t l⟩ ⟨s',Function.update locals t l'⟩ := by
  have hm : move s (Function.update locals t l t) s' l' := by rwa [Function.update_self]
  have hstep := Step.move ⟨s,Function.update locals t l⟩ s' l' hm
  rwa [Function.update_idem] at hstep

/-- The other threads stay where they are. -/
theorem Step.frame (h : Step move t σ σ') {u : ι} (hu : u ≠ t) : σ'.locals u = σ.locals u := by
  cases h with
  | move s l h => exact Function.update_of_ne hu ..

/-- What all threads account for changes by what the moving one does. -/
theorem Step.sum_add [Fintype ι] [AddCommMonoid M] (f : L → M) (h : Step move t σ σ') :
    ∑ u, f (σ'.locals u)+f (σ.locals t) = ∑ u, f (σ.locals u)+f (σ'.locals t) := by
  cases h with
  | move s l h =>
    dsimp only
    rw [Function.update_self]
    exact sum_update_add f σ.locals t l

/-- An invariant of the shared state, and one of each thread beside it. -/
structure Invariant (P : S → Prop) (Q : S → L → Prop) (σ : Threads ι S L) : Prop where
  shared : P σ.shared
  locals : ∀ t, Q σ.shared (σ.locals t)

/-- A step keeps them if the moving thread does and the others' parts survive it. -/
theorem Invariant.step {P : S → Prop} {Q : S → L → Prop} (hσ : Invariant P Q σ)
    (h : Step move t σ σ')
    (hmove : P σ.shared → Q σ.shared (σ.locals t) → P σ'.shared ∧ Q σ'.shared (σ'.locals t))
    (hrest : ∀ u, u ≠ t → Q σ.shared (σ.locals u) → Q σ'.shared (σ.locals u)) :
    Invariant P Q σ' := by
  obtain ⟨hshared,hlocal⟩ := hmove hσ.shared (hσ.locals t)
  refine ⟨hshared,fun u => ?_⟩
  by_cases hut : u = t
  · rw [hut]
    exact hlocal
  · rw [h.frame hut]
    exact hrest u hut (hσ.locals u)

/-- A lock: `held` says that it is taken and `holds` that a thread has it. A move takes it only
while it is free, and only the thread that has it gives it back. -/
structure Lock (move : S → L → S → L → Prop) (held : S → Prop) (holds : L → Prop) : Prop where
  take : ∀ {s l s' l'}, move s l s' l' → holds l' →
    holds l ∧ (held s → held s') ∨ ¬held s ∧ held s'
  keep : ∀ {s l s' l'}, move s l s' l' → ¬holds l → held s → held s'

/-- At most one thread has the lock, and only while it is taken. -/
structure Exclusive (held : S → Prop) (holds : L → Prop) (σ : Threads ι S L) : Prop where
  held : ∀ t, holds (σ.locals t) → held σ.shared
  unique : ∀ t u, holds (σ.locals t) → holds (σ.locals u) → t = u

variable {held : S → Prop} {holds : L → Prop}

/-- The moving thread has the lock afterwards only if no other thread has it. -/
theorem Exclusive.of_take (hσ : Exclusive held holds σ) (hl : Lock move held holds)
    (h : Step move t σ σ') (ht : holds (σ'.locals t)) {u : ι} (hu : holds (σ.locals u)) :
    t = u := by
  rcases hl.take h.moves ht with ⟨hhad,-⟩ | ⟨hfree,-⟩
  · exact hσ.unique t u hhad hu
  · exact absurd (hσ.held u hu) hfree

theorem Exclusive.step (hσ : Exclusive held holds σ) (hl : Lock move held holds)
    (h : Step move t σ σ') : Exclusive held holds σ' := by
  constructor
  · intro u hu
    by_cases hut : u = t
    · subst hut
      rcases hl.take h.moves hu with ⟨hhad,hkeep⟩ | ⟨-,htook⟩
      · exact hkeep (hσ.held u hhad)
      · exact htook
    · rw [h.frame hut] at hu
      apply hl.keep h.moves
      · intro ht
        exact hut (hσ.unique u t hu ht)
      · exact hσ.held u hu
  · intro u v hu hv
    by_cases hut : u = t
    · by_cases hvt : v = t
      · rw [hut,hvt]
      · rw [h.frame hvt] at hv
        subst hut
        exact hσ.of_take hl h hu hv
    · rw [h.frame hut] at hu
      by_cases hvt : v = t
      · subst hvt
        exact (hσ.of_take hl h hv hu).symm
      · rw [h.frame hvt] at hv
        exact hσ.unique u v hu hv

/-- A taken lock is in some thread's hands, if a move that leaves it taken without having it finds
it taken and does not have it either. -/
theorem Step.exists_holder (h : Step move t σ σ')
    (hσ : held σ.shared → ∃ u, holds (σ.locals u))
    (hmove : held σ'.shared → ¬holds (σ'.locals t) → held σ.shared ∧ ¬holds (σ.locals t)) :
    held σ'.shared → ∃ u, holds (σ'.locals u) := by
  intro hheld
  by_cases ht : holds (σ'.locals t)
  · exact ⟨t,ht⟩
  · obtain ⟨hheld',ht'⟩ := hmove hheld ht
    obtain ⟨u,hu⟩ := hσ hheld'
    have hut : u ≠ t := fun he => ht' (he ▸ hu)
    exact ⟨u,by rw [h.frame hut]; exact hu⟩

end Threads
end TrieRebuild.Foundation
