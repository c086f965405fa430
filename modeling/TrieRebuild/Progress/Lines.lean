import TrieRebuild.Progress.ProgressSink

/-! The logged lines. The lock spaces them by the interval; but the additions are made outside it,
so lines print growing counts exactly if the calls that log them added in the same order. -/
namespace TrieRebuild
open Foundation

/-- The lock of the sink. -/
theorem Reporter.lock : Threads.Lock Reporter.Move (fun p => p.locked = true)
    (fun c => c.holds = true) := by
  constructor
  · intro p c p' c' hm hc
    cases hm <;> simp_all [Reporter.holds]
  · intro p c p' c' hm hc hp
    cases hm <;> simp_all [Reporter.holds]

/-- A call without the lock leaves the lines and what spaces them alone. -/
theorem Reporter.Move.frame {p p' : Progress} {c c' : Reporter} (hm : Move p c p' c')
    (hc : ¬c.holds = true) : p'.lines = p.lines ∧ p'.clock = p.clock ∧
      p'.sink.lastLog = p.sink.lastLog ∧ p'.sink.interval = p.sink.interval := by
  cases hm <;> simp_all [Reporter.holds]

theorem Reporter.Move.interval {p p' : Progress} {c c' : Reporter} (hm : Move p c p' c') :
    p'.sink.interval = p.sink.interval := by
  cases hm <;> rfl

/-- A line is let through at least the interval before the next. -/
def Line.Spaced (interval : ℕ) (l m : Line) : Prop := l.checked+interval ≤ m.checked

/-- The lines are spaced, and let through before the last update of `last_log`. -/
structure Progress.Timed (p : Progress) : Prop where
  lastLog : p.sink.lastLog ≤ p.clock
  checked : ∀ l ∈ p.lines, l.checked ≤ p.sink.lastLog
  spaced : p.lines.Pairwise (Line.Spaced p.sink.interval)

/-- A call past the interval check was let through an interval after the lines before it. -/
def Reporter.Timed (p : Progress) : Reporter → Prop
  | passed _ checked => checked ≤ p.clock ∧ p.sink.lastLog+p.sink.interval ≤ checked
  | stamped _ checked => checked ≤ p.sink.lastLog ∧
      ∀ l ∈ p.lines, l.checked+p.sink.interval ≤ checked
  | _ => True

theorem Reporter.timed_of_not_holds (p : Progress) {c : Reporter} (hc : ¬c.holds = true) :
    c.Timed p := by
  cases c <;> simp_all [Reporter.holds,Reporter.Timed]

theorem Reporter.Timed.frame {p p' : Progress} {c : Reporter} (h : c.Timed p)
    (hp : p'.lines = p.lines ∧ p'.clock = p.clock ∧ p'.sink.lastLog = p.sink.lastLog ∧
      p'.sink.interval = p.sink.interval) : c.Timed p' := by
  obtain ⟨hlines,hclock,hlast,hinterval⟩ := hp
  cases c <;> simp_all [Reporter.Timed]

/-- What a move does to the times. -/
theorem Reporter.Move.timed {p p' : Progress} {c c' : Reporter} (hm : Move p c p' c')
    (hp : p.Timed) (hc : c.Timed p) : p'.Timed ∧ c'.Timed p' := by
  have hlast := hp.lastLog
  cases hm with
  | skip | fetchAdd | lock | lockPoisoned | unlock =>
    exact ⟨⟨hp.lastLog,hp.checked,hp.spaced⟩,trivial⟩
  | early k now hnow | logPanics k checked now hnow =>
    exact ⟨⟨hlast.trans hnow,hp.checked,hp.spaced⟩,trivial⟩
  | pass k now hnow h =>
    refine ⟨⟨hlast.trans hnow,hp.checked,hp.spaced⟩,le_refl _,?_⟩
    dsimp only
    omega
  | stamp k checked now hnow =>
    obtain ⟨hclock,hinterval⟩ := hc
    refine ⟨⟨le_refl _,?_,hp.spaced⟩,hclock.trans hnow,?_⟩
    · intro l hl
      exact (hp.checked l hl).trans (hlast.trans hnow)
    · intro l hl
      have hle := hp.checked l hl
      dsimp only
      omega
  | log k checked now hnow =>
    obtain ⟨hstamp,hspaced⟩ := hc
    refine ⟨⟨hlast.trans hnow,?_,?_⟩,trivial⟩
    · intro l hl
      rcases List.mem_append.mp hl with hl | hl
      · exact hp.checked l hl
      · rw [List.mem_singleton.mp hl]
        exact hstamp
    · apply List.pairwise_append.mpr
      refine ⟨hp.spaced,List.pairwise_singleton _ _,?_⟩
      intro l hl m hm
      rw [List.mem_singleton.mp hm]
      exact hspaced l hl

/-- The sum of the first additions. -/
def sumUpTo (added : List UInt64) (n : ℕ) : ℕ := ((added.take n).map UInt64.toNat).sum

theorem sumUpTo_append {added : List UInt64} {n : ℕ} (hn : n ≤ added.length) (l : List UInt64) :
    sumUpTo (added ++ l) n = sumUpTo added n := by
  rw [sumUpTo,List.take_append_of_le_length hn,sumUpTo]

theorem sumUpTo_concat (added : List UInt64) (e : UInt64) :
    sumUpTo (added ++ [e]) (added.length+1) = sumUpTo added added.length+e.toNat := by
  rw [sumUpTo,List.take_of_length_le (by simp),sumUpTo,List.take_length]
  simp

theorem sumUpTo_le {added : List UInt64} {m n : ℕ} (h : m ≤ n) :
    sumUpTo added m ≤ sumUpTo added n :=
  ((List.take_sublist_take_left h).map _).sum_le_sum (fun _ _ => Nat.zero_le _)

theorem sumUpTo_succ {added : List UInt64} {n : ℕ} (hn : n < added.length) :
    sumUpTo added (n+1) = sumUpTo added n+added[n].toNat := by
  rw [sumUpTo,List.take_succ_eq_append_getElem hn,List.map_append,List.sum_append,sumUpTo]
  simp

/-- With positive entries every addition raises the sum. -/
theorem sumUpTo_lt {added : List UInt64} (hpos : ∀ e ∈ added, e ≠ 0) {m n : ℕ} (hmn : m < n)
    (hn : n ≤ added.length) : sumUpTo added m < sumUpTo added n := by
  have hm : m < added.length := by omega
  have hne := hpos _ (List.getElem_mem hm)
  have hentry : added[m].toNat ≠ 0 := fun h => hne (UInt64.toNat_inj.mp h)
  have hle : sumUpTo added (m+1) ≤ sumUpTo added n := sumUpTo_le hmn
  rw [sumUpTo_succ hm] at hle
  omega

/-- A ticket is of one of the additions, and has the sum up to it. -/
structure Ticket.Valid (added : List UInt64) (k : Ticket) : Prop where
  call_lt : k.call < added.length
  walked : k.walked.toNat = sumUpTo added (k.call+1) % 2^64

theorem Ticket.Valid.append {added : List UInt64} {k : Ticket} (h : k.Valid added)
    (l : List UInt64) : k.Valid (added ++ l) := by
  have hlt := h.call_lt
  constructor
  · rw [List.length_append]
    omega
  · rw [sumUpTo_append hlt,h.walked]

/-- Unless the additions wrap, later tickets have higher counts. -/
theorem Ticket.Valid.walked_le_iff {added : List UInt64} {k m : Ticket} (hk : k.Valid added)
    (hm : m.Valid added) (hpos : ∀ e ∈ added, e ≠ 0)
    (hfits : sumUpTo added added.length < 2^64) : k.walked ≤ m.walked ↔ k.call ≤ m.call := by
  have hkle : sumUpTo added (k.call+1) ≤ sumUpTo added added.length := sumUpTo_le hk.call_lt
  have hmle : sumUpTo added (m.call+1) ≤ sumUpTo added added.length := sumUpTo_le hm.call_lt
  rw [UInt64.le_iff_toNat_le,hk.walked,hm.walked,Nat.mod_eq_of_lt (by omega),
    Nat.mod_eq_of_lt (by omega)]
  constructor
  · intro hle
    by_contra hlt
    have hsum := sumUpTo_lt hpos (show m.call+1 < k.call+1 by omega) hk.call_lt
    omega
  · intro hle
    exact sumUpTo_le (by omega)

/-- `walked` is the sum of the additions up to wrapping, and the lines print such sums. -/
structure Progress.Walked (p : Progress) : Prop where
  positive : ∀ e ∈ p.added, e ≠ 0
  walked : p.sink.walked.toNat = sumUpTo p.added p.added.length % 2^64
  lines : ∀ l ∈ p.lines, l.ticket.Valid p.added

/-- A call has the count of its own addition. -/
def Reporter.Walked (p : Progress) (c : Reporter) : Prop :=
  ∀ k, c.ticket? = some k → k.Valid p.added

theorem Reporter.Move.added {p p' : Progress} {c c' : Reporter} (hm : Move p c p' c') :
    ∃ l, p'.added = p.added ++ l := by
  cases hm with
  | fetchAdd entries => exact ⟨[entries],rfl⟩
  | _ => exact ⟨[],(List.append_nil _).symm⟩

theorem Reporter.Move.walked {p p' : Progress} {c c' : Reporter} (hm : Move p c p' c')
    (hp : p.Walked) (hc : c.Walked p) : p'.Walked ∧ c'.Walked p' := by
  cases hm with
  | fetchAdd entries hentries =>
    have hwalked : (p.sink.walked+entries).toNat =
        sumUpTo (p.added ++ [entries]) (p.added.length+1) % 2^64 := by
      rw [sumUpTo_concat,UInt64.toNat_add,hp.walked,Nat.mod_add_mod]
    refine ⟨⟨?_,?_,?_⟩,?_⟩
    · intro e he
      rcases List.mem_append.mp he with he | he
      · exact hp.positive e he
      · rw [List.mem_singleton.mp he]
        exact hentries
    · rw [List.length_append]
      exact hwalked
    · intro l hl
      exact (hp.lines l hl).append _
    · intro k hk
      cases hk
      exact ⟨by simp,hwalked⟩
  | log k checked now hnow =>
    refine ⟨⟨hp.positive,hp.walked,?_⟩,fun k hk => by cases hk⟩
    intro l hl
    rcases List.mem_append.mp hl with hl | hl
    · exact hp.lines l hl
    · rw [List.mem_singleton.mp hl]
      exact hc k rfl
  | skip | lock | pass | stamp => exact ⟨⟨hp.positive,hp.walked,hp.lines⟩,hc⟩
  | lockPoisoned | early | logPanics | unlock =>
    exact ⟨⟨hp.positive,hp.walked,hp.lines⟩,fun k hk => by cases hk⟩

namespace Reporting
variable {ι : Type} {σ σ' : Reporting ι}

/-- All that holds in every run. -/
structure Sound (σ : Reporting ι) : Prop where
  exclusive : Threads.Exclusive (fun p => p.locked = true) (fun c => c.holds = true) σ
  timed : Threads.Invariant Progress.Timed Reporter.Timed σ
  walked : Threads.Invariant Progress.Walked Reporter.Walked σ

theorem sound_fresh (total : UInt64) (interval now : ℕ) : Sound (fresh ι total interval now) := by
  refine ⟨⟨?_,?_⟩,⟨⟨le_refl _,?_,List.Pairwise.nil⟩,fun _ => trivial⟩,⟨⟨?_,rfl,?_⟩,?_⟩⟩
  · intro t ht
    cases ht
  · intro t u ht
    cases ht
  · intro l hl
    cases hl
  · intro e he
    cases he
  · intro l hl
    cases hl
  · intro t k hk
    cases hk

/-- Lines with growing counts are those logged in the order of the additions. -/
theorem Sound.walked_le_iff (hσ : σ.Sound)
    (hfits : sumUpTo σ.shared.added σ.shared.added.length < 2^64) :
    σ.shared.lines.Pairwise (fun l m => l.ticket.walked ≤ m.ticket.walked) ↔
      σ.shared.lines.Pairwise fun l m => l.ticket.call ≤ m.ticket.call := by
  apply List.Pairwise.iff_of_mem
  intro l m hl hm
  have hp := hσ.walked.shared
  exact (hp.lines l hl).walked_le_iff (hp.lines m hm) hp.positive hfits

variable [DecidableEq ι]

theorem Sound.step {t : ι} (hσ : σ.Sound) (h : Threads.Step Reporter.Move t σ σ') : σ'.Sound := by
  refine ⟨hσ.exclusive.step Reporter.lock h,?_,?_⟩
  · apply hσ.timed.step h h.moves.timed
    intro u hut hu
    by_cases hheld : (σ.locals u).holds = true
    · -- the lock is with another thread than the moving one
      apply hu.frame
      apply h.moves.frame
      intro ht
      exact hut (hσ.exclusive.unique u t hheld ht)
    · exact Reporter.timed_of_not_holds _ hheld
  · apply hσ.walked.step h h.moves.walked
    intro u _ hu k hk
    obtain ⟨l,hl⟩ := h.moves.added
    rw [hl]
    exact (hu k hk).append l

theorem Reaches.sound {total : UInt64} {interval now : ℕ}
    (h : Reaches (fresh ι total interval now) σ) : σ.Sound := by
  induction h with
  | refl => exact sound_fresh total interval now
  | tail _ hs ih =>
    obtain ⟨t,hs⟩ := hs
    exact ih.step hs

theorem Reaches.interval {total : UInt64} {interval now : ℕ}
    (h : Reaches (fresh ι total interval now) σ) : σ.shared.sink.interval = interval := by
  induction h with
  | refl => rfl
  | tail _ hs ih =>
    obtain ⟨t,hs⟩ := hs
    rw [hs.moves.interval,ih]

/-- In every run the checks that let lines through are an interval apart. While the additions do
not wrap, the counts of the lines grow exactly if the calls that log them, taken in the order of
the lines, made their additions in that order too. -/
theorem lines_grow_iff {total : UInt64} {interval now : ℕ}
    (h : Reaches (fresh ι total interval now) σ) :
    σ.shared.lines.Pairwise (Line.Spaced interval) ∧
    (sumUpTo σ.shared.added σ.shared.added.length < 2^64 →
      (σ.shared.lines.Pairwise (fun l m => l.ticket.walked ≤ m.ticket.walked) ↔
        σ.shared.lines.Pairwise fun l m => l.ticket.call ≤ m.ticket.call)) := by
  have hspaced := h.sound.timed.shared.spaced
  rw [h.interval] at hspaced
  exact ⟨hspaced,h.sound.walked_le_iff⟩

/-- Two threads that log one after the other. -/
theorem lines_grow_iff_sample : ∃ σ : Reporting Bool, Reaches (fresh Bool 4 10 0) σ ∧
    σ.shared.lines.map (fun l => l.checked) = [12,25] ∧
    σ.shared.lines.Pairwise (Line.Spaced 10) ∧
    σ.shared.lines.Pairwise (fun l m => l.ticket.walked ≤ m.ticket.walked) := by
  have hrun : ∃ σ : Reporting Bool, Reaches (fresh Bool 4 10 0) σ ∧
      σ.shared.added = [1,3] ∧
      σ.shared.lines = [⟨⟨1,0⟩,4,14,12⟩,⟨⟨4,1⟩,4,26,25⟩] := by
    refine ⟨_,Relation.ReflTransGen.refl
      |>.tail ⟨false,.move _ _ _ (.fetchAdd _ 1 (by decide))⟩
      |>.tail ⟨false,.move _ _ _ (.lock _ ⟨1,0⟩ rfl rfl)⟩
      |>.tail ⟨false,.move _ _ _ (.pass _ ⟨1,0⟩ 12 (by decide) (by decide))⟩
      |>.tail ⟨true,.move _ _ _ (.fetchAdd _ 3 (by decide))⟩
      |>.tail ⟨false,.move _ _ _ (.stamp _ ⟨1,0⟩ 12 13 (by decide))⟩
      |>.tail ⟨false,.move _ _ _ (.log _ ⟨1,0⟩ 12 14 (by decide))⟩
      |>.tail ⟨false,.move _ _ _ (.unlock _)⟩
      |>.tail ⟨true,.move _ _ _ (.lock _ ⟨4,1⟩ rfl rfl)⟩
      |>.tail ⟨true,.move _ _ _ (.pass _ ⟨4,1⟩ 25 (by decide) (by decide))⟩
      |>.tail ⟨true,.move _ _ _ (.stamp _ ⟨4,1⟩ 25 25 (by decide))⟩
      |>.tail ⟨true,.move _ _ _ (.log _ ⟨4,1⟩ 25 26 (by decide))⟩,rfl,?_⟩
    decide
  obtain ⟨σ,hσ,hadded,hlines⟩ := hrun
  obtain ⟨hspaced,hgrow⟩ := lines_grow_iff hσ
  refine ⟨σ,hσ,by rw [hlines]; rfl,hspaced,(hgrow ?_).mpr ?_⟩
  · rw [hadded]
    decide
  · rw [hlines]
    decide

/-- Without an interval: a thread adds first and logs last, and its line goes back from 2 to 1. -/
theorem lines_go_back : ∃ σ : Reporting Bool, Reaches (fresh Bool 2 0 0) σ ∧
    σ.shared.lines.map (fun l => l.ticket.walked) = [2,1] := by
  refine ⟨_,Relation.ReflTransGen.refl
    |>.tail ⟨false,.move _ _ _ (.fetchAdd _ 1 (by decide))⟩
    |>.tail ⟨true,.move _ _ _ (.fetchAdd _ 1 (by decide))⟩
    |>.tail ⟨true,.move _ _ _ (.lock _ ⟨2,1⟩ rfl rfl)⟩
    |>.tail ⟨true,.move _ _ _ (.pass _ ⟨2,1⟩ 1 (by decide) (by decide))⟩
    |>.tail ⟨true,.move _ _ _ (.stamp _ ⟨2,1⟩ 1 2 (by decide))⟩
    |>.tail ⟨true,.move _ _ _ (.log _ ⟨2,1⟩ 1 3 (by decide))⟩
    |>.tail ⟨true,.move _ _ _ (.unlock _)⟩
    |>.tail ⟨false,.move _ _ _ (.lock _ ⟨1,0⟩ rfl rfl)⟩
    |>.tail ⟨false,.move _ _ _ (.pass _ ⟨1,0⟩ 4 (by decide) (by decide))⟩
    |>.tail ⟨false,.move _ _ _ (.stamp _ ⟨1,0⟩ 4 5 (by decide))⟩
    |>.tail ⟨false,.move _ _ _ (.log _ ⟨1,0⟩ 4 6 (by decide))⟩,?_⟩
  decide

end Reporting
end TrieRebuild
