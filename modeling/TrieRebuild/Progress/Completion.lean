import TrieRebuild.Foundation.Draining
import TrieRebuild.Progress.Rate

/-! Calls of `on_progress` come to an end: the lock is always in the hands of a call that can go
on, so calls in progress finish in a bounded number of moves, whatever their order. -/
namespace TrieRebuild
open Foundation

/-- Moves a call still has to make. -/
def Reporter.rank : Reporter → ℕ
  | idle => 0
  | added _ => 5
  | locked _ => 4
  | passed _ _ => 3
  | stamped _ _ => 2
  | logged => 1
  | panicked => 0

/-- A thread outside of any call, for good if its last one panicked. -/
def Reporter.isOver : Reporter → Bool
  | idle => true
  | panicked => true
  | _ => false

theorem Reporter.Move.rank_lt {p p' : Progress} {c c' : Reporter} (hm : Move p c p' c')
    (hc : c ≠ .idle) : c'.rank < c.rank := by
  cases hm with
  | skip => exact absurd rfl hc
  | fetchAdd entries h => exact absurd rfl hc
  | _ => simp [Reporter.rank]

/-- A call that leaves a taken lock taken without having it did not have it before. -/
theorem Reporter.Move.held {p p' : Progress} {c c' : Reporter} (hm : Move p c p' c')
    (hp : p'.locked = true) (hc : ¬c'.holds = true) : p.locked = true ∧ ¬c.holds = true := by
  cases hm <;> simp_all [Reporter.holds]

/-- A call with the lock can always go on. -/
theorem Reporter.exists_move_of_holds (p : Progress) {c : Reporter} (hc : c.holds = true) :
    ∃ p' c', Move p c p' c' := by
  cases c with
  | locked k =>
    by_cases h : p.clock-p.sink.lastLog < p.sink.interval
    · exact ⟨_,_,.early p k p.clock le_rfl h⟩
    · exact ⟨_,_,.pass p k p.clock le_rfl h⟩
  | passed k checked => exact ⟨_,_,.stamp p k checked p.clock le_rfl⟩
  | stamped k checked => exact ⟨_,_,.log p k checked p.clock le_rfl⟩
  | logged => exact ⟨_,_,.unlock p⟩
  | _ => cases hc

/-- A call waiting for a free lock can go on: it takes it or panics on it. -/
theorem Reporter.exists_move_of_added {p : Progress} (hp : p.locked = false) (k : Ticket) :
    ∃ p' c', Move p (.added k) p' c' := by
  cases h : p.poisoned with
  | false => exact ⟨_,_,.lock p k hp h⟩
  | true => exact ⟨_,_,.lockPoisoned p k hp h⟩

/-- Panics poison the lock. -/
theorem Reporter.Move.poisons {p p' : Progress} {c c' : Reporter} (hm : Move p c p' c') :
    (p.poisoned = true → p'.poisoned = true) ∧ (c' = .panicked → p'.poisoned = true) := by
  cases hm <;> simp_all

namespace Reporting
variable {ι : Type} [DecidableEq ι] {σ σ' : Reporting ι}

/-- A move of a call in progress. -/
def CallStep (σ σ' : Reporting ι) : Prop :=
  ∃ t, Threads.Step Reporter.Move t σ σ' ∧ σ.locals t ≠ .idle

/-- No call is in progress. -/
def Over (σ : Reporting ι) : Prop := ∀ t, (σ.locals t).isOver = true

def rank [Fintype ι] (σ : Reporting ι) : ℕ := ∑ t, (σ.locals t).rank

theorem Reaches.holder {total : UInt64} {interval now : ℕ}
    (h : Reaches (fresh ι total interval now) σ) :
    σ.shared.locked = true → ∃ t, (σ.locals t).holds = true := by
  induction h with
  | refl =>
    intro hl
    cases hl
  | tail _ hs ih =>
    obtain ⟨t,hs⟩ := hs
    let held : Progress → Prop := fun p => p.locked = true
    let holds : Reporter → Prop := fun c => c.holds = true
    have hmove : held _ → ¬holds _ → held _ ∧ ¬holds _ := hs.moves.held
    exact hs.exists_holder ih hmove

theorem Reaches.poisoned_of_panicked {total : UInt64} {interval now : ℕ}
    (h : Reaches (fresh ι total interval now) σ) {t : ι} (ht : σ.locals t = .panicked) :
    σ.shared.poisoned = true := by
  induction h with
  | refl => cases ht
  | tail _ hs ih =>
    obtain ⟨u,hs⟩ := hs
    by_cases hut : t = u
    · subst hut
      exact hs.moves.poisons.2 ht
    · rw [hs.frame hut] at ht
      exact hs.moves.poisons.1 (ih ht)

/-- A move of one thread is a step of the system. -/
theorem CallStep.of_move {t : ι} {p : Progress} {c : Reporter}
    (hm : Reporter.Move σ.shared (σ.locals t) p c) (ht : σ.locals t ≠ .idle) :
    ∃ σ', CallStep σ σ' := ⟨_,t,.move σ p c hm,ht⟩

/-- Calls in progress drain. -/
theorem drains [Fintype ι] {total : UInt64} {interval now : ℕ} :
    Drains CallStep (Reaches (fresh ι total interval now)) Over rank where
  keeps := by
    rintro σ σ' hr ⟨t,hs,-⟩
    exact hr.tail ⟨t,hs⟩
  lowers := by
    rintro σ σ' - ⟨t,hs,hcall⟩
    have hsum := hs.sum_add Reporter.rank
    have hlt := hs.moves.rank_lt hcall
    unfold rank
    omega
  progress := by
    intro σ hr hnot
    unfold Over at hnot
    push Not at hnot
    obtain ⟨t,ht⟩ := hnot
    by_cases hlocked : σ.shared.locked = true
    · obtain ⟨u,hu⟩ := Reaches.holder hr hlocked
      obtain ⟨p,c,hm⟩ := Reporter.exists_move_of_holds σ.shared hu
      refine CallStep.of_move hm fun hidle => ?_
      rw [hidle] at hu
      cases hu
    · have hfree : σ.shared.locked = false := by simpa using hlocked
      cases hl : σ.locals t with
      | idle => rw [hl] at ht; exact absurd rfl ht
      | panicked => rw [hl] at ht; exact absurd rfl ht
      | added k =>
        obtain ⟨p,c,hm⟩ := Reporter.exists_move_of_added hfree k
        rw [← hl] at hm
        exact CallStep.of_move hm (by rw [hl]; exact Reporter.noConfusion)
      | _ =>
        -- the lock would be taken
        have hheld := (Reaches.sound hr).exclusive.held t (by rw [hl]; rfl)
        exact absurd hheld hlocked

/-- From every reachable state calls in progress end: in at most five moves a thread, in any order,
and where none is left to make, every call is over, and has returned normally unless a panic has
poisoned the lock. Some order gets there. -/
theorem calls_end [Fintype ι] {total : UInt64} {interval now : ℕ}
    (h : Reaches (fresh ι total interval now) σ) :
    (∀ k σ', StepsIn CallStep σ k σ' → k ≤ 5*Fintype.card ι ∧
      ((∀ τ, ¬CallStep σ' τ) → Over σ' ∧
        (σ'.shared.poisoned = false → ∀ t, σ'.locals t = .idle))) ∧
    ∃ k σ', StepsIn CallStep σ k σ' ∧ Over σ' := by
  refine ⟨fun k σ' hk => ⟨?_,fun hstuck => ?_⟩,drains.exists_done h⟩
  · have hlen := drains.length_add_le h hk
    have hle : ∀ t ∈ Finset.univ, (σ.locals t).rank ≤ 5 := by
      intro t _
      cases σ.locals t <;> simp [Reporter.rank]
    have hsum := Finset.sum_le_card_nsmul _ _ _ hle
    rw [Finset.card_univ,smul_eq_mul] at hsum
    unfold rank at hlen
    omega
  · have hover := drains.done_of_stuck h hk hstuck
    have hr := drains.inv_of_steps h hk
    refine ⟨hover,fun hp t => ?_⟩
    have ht := hover t
    cases hl : σ'.locals t with
    | idle => rfl
    | panicked =>
      rw [Reaches.poisoned_of_panicked hr hl] at hp
      cases hp
    | _ => rw [hl] at ht; cases ht

/-- A thread waiting for the lock another one holds. -/
theorem calls_end_sample : ∃ σ : Reporting Bool, Reaches (fresh Bool 3 10 0) σ ∧ ¬Over σ ∧
    ∃ k σ', StepsIn CallStep σ k σ' ∧ Over σ' := by
  have hrun : ∃ σ : Reporting Bool, Reaches (fresh Bool 3 10 0) σ ∧
      σ.locals true = .added ⟨3,1⟩ := by
    refine ⟨_,Relation.ReflTransGen.refl
      |>.tail ⟨false,.move _ _ _ (.fetchAdd _ 1 (by decide))⟩
      |>.tail ⟨true,.move _ _ _ (.fetchAdd _ 2 (by decide))⟩
      |>.tail ⟨false,.move _ _ _ (.lock _ ⟨1,0⟩ rfl rfl)⟩,rfl⟩
  obtain ⟨σ,hσ,hwaiting⟩ := hrun
  refine ⟨σ,hσ,fun hover => ?_,(calls_end hσ).2⟩
  have ht := hover true
  rw [hwaiting] at ht
  cases ht

end Reporting
end TrieRebuild
