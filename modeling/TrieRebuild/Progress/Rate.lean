import TrieRebuild.Progress.Lines

/-! How often `ProgressSink` logs, and what its counts come to: never more lines than intervals
have passed, and counts that stay within the expected total if the reported entries do. -/
namespace TrieRebuild
open Foundation

/-- There was an interval before each line. -/
def Progress.Rated (p : Progress) : Prop :=
  p.sink.started+p.lines.length*p.sink.interval ≤ p.sink.lastLog

/-- And another before the line that a call has stamped. -/
def Reporter.Rated (p : Progress) : Reporter → Prop
  | stamped _ _ => p.sink.started+(p.lines.length+1)*p.sink.interval ≤ p.sink.lastLog
  | _ => True

/-- What a move does to the rate; the other calls' times come from the lock. -/
theorem Reporter.Move.rated {p p' : Progress} {c c' : Reporter} (hm : Move p c p' c')
    (ht : p.Timed) (hc : c.Timed p) (hp : p.Rated) (hr : c.Rated p) :
    p'.Rated ∧ c'.Rated p' := by
  have hlast := ht.lastLog
  cases hm with
  | stamp k checked now hnow =>
    obtain ⟨hclock,hinterval⟩ := hc
    unfold Progress.Rated at hp
    unfold Progress.Rated Reporter.Rated
    dsimp only
    rw [Nat.succ_mul]
    omega
  | log k checked now hnow =>
    refine ⟨?_,trivial⟩
    unfold Progress.Rated
    dsimp only
    rw [List.length_append,List.length_singleton]
    exact hr
  | _ => exact ⟨hp,trivial⟩

theorem Reporter.Move.started {p p' : Progress} {c c' : Reporter} (hm : Move p c p' c') :
    p'.sink.started = p.sink.started ∧ p'.sink.total = p.sink.total := by
  cases hm <;> exact ⟨rfl,rfl⟩

/-- Once poisoned, the lock is out of use and nothing more is logged. -/
theorem Reporter.Move.poisoned {p p' : Progress} {c c' : Reporter} (hm : Move p c p' c')
    (hp : p.poisoned = true) (hc : ¬c.holds = true) :
    p'.poisoned = true ∧ p'.lines = p.lines ∧ ¬c'.holds = true := by
  cases hm <;> simp_all [Reporter.holds]

namespace Reporting
variable {ι : Type} {σ σ' : Reporting ι}

/-- The rate holds of the sink and of each call. -/
def Rated (σ : Reporting ι) : Prop :=
  Threads.Invariant Progress.Rated Reporter.Rated σ

/-- A poisoned lock is in nobody's hands. -/
def Unheld (σ : Reporting ι) : Prop :=
  σ.shared.poisoned = true → ∀ t, ¬(σ.locals t).holds = true

variable [DecidableEq ι]

theorem Rated.step {t : ι} (hr : σ.Rated) (hσ : σ.Sound)
    (h : Threads.Step Reporter.Move t σ σ') : σ'.Rated := by
  refine Threads.Invariant.step hr h
    (h.moves.rated hσ.timed.shared (hσ.timed.locals t)) fun u hut hu => ?_
  by_cases hheld : (σ.locals u).holds = true
  · -- the moving thread is without the lock
    have hfree : ¬(σ.locals t).holds = true := fun ht => hut (hσ.exclusive.unique u t hheld ht)
    obtain ⟨hlines,-,hlast,hinterval⟩ := h.moves.frame hfree
    have hstarted := h.moves.started.1
    cases hl : σ.locals u with
    | stamped k checked =>
      rw [hl] at hu
      unfold Reporter.Rated at hu ⊢
      rwa [hlines,hlast,hinterval,hstarted]
    | _ => trivial
  · cases hl : σ.locals u with
    | stamped k checked => rw [hl] at hheld; exact absurd rfl hheld
    | _ => trivial

theorem Reaches.rated {total : UInt64} {interval now : ℕ}
    (h : Reaches (fresh ι total interval now) σ) : σ.Rated := by
  induction h with
  | refl =>
    refine ⟨?_,fun _ => trivial⟩
    simp [Progress.Rated,fresh,ProgressSink.new]
  | tail hr hs ih =>
    obtain ⟨t,hs⟩ := hs
    exact ih.step (Reaches.sound hr) hs

theorem Unheld.step {t : ι} (hu : σ.Unheld) (hσ : σ.Sound)
    (h : Threads.Step Reporter.Move t σ σ') : σ'.Unheld := by
  intro hp u
  by_cases hold : σ.shared.poisoned = true
  · by_cases hut : u = t
    · subst hut
      exact (h.moves.poisoned hold (hu hold u)).2.2
    · rw [h.frame hut]
      exact hu hold u
  · -- the panic that poisons the lock is the holder's
    have hm := h.moves
    by_cases hut : u = t
    · subst hut
      generalize σ.shared = p,σ.locals u = c,σ'.shared = p',σ'.locals u = c' at *
      cases hm <;> simp_all [Reporter.holds]
    · rw [h.frame hut]
      intro hheld
      have hfree : ¬(σ.locals t).holds = true := fun ht => hut (hσ.exclusive.unique u t hheld ht)
      generalize σ.shared = p,σ.locals t = c,σ'.shared = p',σ'.locals t = c' at *
      cases hm <;> simp_all [Reporter.holds]

theorem Reaches.unheld {total : UInt64} {interval now : ℕ}
    (h : Reaches (fresh ι total interval now) σ) : σ.Unheld := by
  induction h with
  | refl =>
    intro hp
    cases hp
  | tail hr hs ih =>
    obtain ⟨t,hs⟩ := hs
    exact ih.step (Reaches.sound hr) hs

theorem Reaches.started {total : UInt64} {interval now : ℕ}
    (h : Reaches (fresh ι total interval now) σ) :
    σ.shared.sink.started = now ∧ σ.shared.sink.total = total := by
  induction h with
  | refl => exact ⟨rfl,rfl⟩
  | tail _ hs ih =>
    obtain ⟨t,hs⟩ := hs
    rw [hs.moves.started.1,hs.moves.started.2]
    exact ih

/-- In every interleaving: an interval has passed for each line; the count is the sum of all
reported entries, wrapped; and no line prints more than the expected total as long as no more is
reported. -/
theorem lines_rate {total : UInt64} {interval now : ℕ}
    (h : Reaches (fresh ι total interval now) σ) :
    now+σ.shared.lines.length*interval ≤ σ.shared.clock ∧
    σ.shared.sink.walked.toNat = (σ.shared.added.map UInt64.toNat).sum % 2^64 ∧
    ((σ.shared.added.map UInt64.toNat).sum ≤ total.toNat →
      σ.shared.sink.walked ≤ total ∧ ∀ l ∈ σ.shared.lines, l.ticket.walked ≤ total) := by
  have hwalked := h.sound.walked.shared
  have hall : sumUpTo σ.shared.added σ.shared.added.length =
      (σ.shared.added.map UInt64.toNat).sum := by
    rw [sumUpTo,List.take_length]
  have hrate : σ.shared.sink.started+σ.shared.lines.length*σ.shared.sink.interval ≤
      σ.shared.sink.lastLog := h.rated.shared
  rw [h.started.1,h.interval] at hrate
  refine ⟨hrate.trans h.sound.timed.shared.lastLog,?_,fun hle => ⟨?_,?_⟩⟩
  · rw [← hall]
    exact hwalked.walked
  · rw [UInt64.le_iff_toNat_le,hwalked.walked,hall]
    exact (Nat.mod_le _ _).trans hle
  · intro l hl
    have hvalid := hwalked.lines l hl
    have hsum : sumUpTo σ.shared.added (l.ticket.call+1) ≤ _ := sumUpTo_le hvalid.call_lt
    rw [UInt64.le_iff_toNat_le,hvalid.walked]
    rw [hall] at hsum
    exact (Nat.mod_le _ _).trans (hsum.trans hle)

/-- A line after ten of twelve nanoseconds, of all three expected entries. -/
theorem lines_rate_sample : ∃ σ : Reporting Unit, Reaches (fresh Unit 3 10 0) σ ∧
    σ.shared.lines.length = 1 ∧ 0+σ.shared.lines.length*10 ≤ σ.shared.clock ∧
    ∀ l ∈ σ.shared.lines, l.ticket.walked ≤ 3 := by
  have hrun : ∃ σ : Reporting Unit, Reaches (fresh Unit 3 10 0) σ ∧ σ.shared.added = [3] ∧
      σ.shared.lines.length = 1 := by
    refine ⟨_,Relation.ReflTransGen.refl
      |>.tail ⟨(),.move _ _ _ (.fetchAdd _ 3 (by decide))⟩
      |>.tail ⟨(),.move _ _ _ (.lock _ ⟨3,0⟩ rfl rfl)⟩
      |>.tail ⟨(),.move _ _ _ (.pass _ ⟨3,0⟩ 10 (by decide) (by decide))⟩
      |>.tail ⟨(),.move _ _ _ (.stamp _ ⟨3,0⟩ 10 11 (by decide))⟩
      |>.tail ⟨(),.move _ _ _ (.log _ ⟨3,0⟩ 10 12 (by decide))⟩,rfl,rfl⟩
  obtain ⟨σ,hσ,hadded,hlines⟩ := hrun
  obtain ⟨hrate,-,hle⟩ := lines_rate hσ
  refine ⟨σ,hσ,hlines,hrate,(hle ?_).2⟩
  rw [hadded]
  decide

/-- After a call has panicked with the lock, nothing is logged any more, and a call that has made
its addition has no way but to panic as well. -/
theorem silent_after_panic {total : UInt64} {interval now : ℕ}
    (h : Reaches (fresh ι total interval now) σ) (hp : σ.shared.poisoned = true)
    (hr : Reaches σ σ') :
    σ'.shared.lines = σ.shared.lines ∧
    ∀ t k, σ'.locals t = .added k → ∀ τ, Threads.Step Reporter.Move t σ' τ →
      τ.locals t = .panicked := by
  have hkept : σ'.shared.poisoned = true ∧ σ'.shared.lines = σ.shared.lines ∧ σ'.Unheld := by
    induction hr with
    | refl => exact ⟨hp,rfl,h.unheld⟩
    | @tail τ τ' hr hs ih =>
      obtain ⟨hp',hlines,hunheld⟩ := ih
      obtain ⟨t,hs⟩ := hs
      obtain ⟨hpoisoned,hsame,-⟩ := hs.moves.poisoned hp' (hunheld hp' t)
      exact ⟨hpoisoned,hsame.trans hlines,hunheld.step (Reaches.sound (h.trans hr)) hs⟩
  obtain ⟨hp',hlines,-⟩ := hkept
  refine ⟨hlines,fun t k hk τ hs => ?_⟩
  have hm := hs.moves
  rw [hk] at hm
  generalize τ.locals t = c',τ.shared = p' at hm
  cases hm with
  | lock _ _ hpoisoned => rw [hp'] at hpoisoned; cases hpoisoned
  | lockPoisoned _ _ _ => rfl

/-- One thread's log call panics while another waits for the lock. -/
theorem silent_after_panic_sample : ∃ σ : Reporting Bool, Reaches (fresh Bool 3 0 0) σ ∧
    σ.shared.poisoned = true ∧ ∀ σ', Reaches σ σ' → σ'.shared.lines = [] := by
  have hrun : ∃ σ : Reporting Bool, Reaches (fresh Bool 3 0 0) σ ∧ σ.shared.poisoned = true ∧
      σ.shared.lines = [] := by
    refine ⟨_,Relation.ReflTransGen.refl
      |>.tail ⟨false,.move _ _ _ (.fetchAdd _ 1 (by decide))⟩
      |>.tail ⟨true,.move _ _ _ (.fetchAdd _ 2 (by decide))⟩
      |>.tail ⟨false,.move _ _ _ (.lock _ ⟨1,0⟩ rfl rfl)⟩
      |>.tail ⟨false,.move _ _ _ (.pass _ ⟨1,0⟩ 10 (by decide) (by decide))⟩
      |>.tail ⟨false,.move _ _ _ (.stamp _ ⟨1,0⟩ 10 11 (by decide))⟩
      |>.tail ⟨false,.move _ _ _ (.logPanics _ ⟨1,0⟩ 10 12 (by decide))⟩,rfl,rfl⟩
  obtain ⟨σ,hσ,hp,hlines⟩ := hrun
  refine ⟨σ,hσ,hp,fun σ' hr => ?_⟩
  rw [(silent_after_panic hσ hp hr).1,hlines]

end Reporting
end TrieRebuild
