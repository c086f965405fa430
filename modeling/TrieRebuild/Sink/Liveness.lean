import TrieRebuild.Foundation.Draining
import TrieRebuild.Foundation.Parts
import TrieRebuild.Sink.ChannelInvariant
import TrieRebuild.Trie.ReferenceReth

/-! `MdbxWriteSink` cannot hang: once no worker makes a new call, the threads use up the sends,
the channel and the open chunk in a bounded number of steps, and `finish` comes back. -/
namespace TrieRebuild
open Foundation

/-- Hops a worker's node still has to make, and the steps its writer and `finish` have left. -/
def Worker.rank : Worker → ℕ
  | running => 0
  | sending _ => 5
  | panicked => 0

def WriterPhase.rank {ε K S : Type} : WriterPhase ε K S → ℕ
  | received _ _ => 5
  | committing _ => 4
  | receiving _ => 3
  | flushing _ => 2
  | returned _ _ => 1
  | ended _ _ => 0

def Finish.rank {ε : Type} : Finish ε → ℕ
  | notCalled => 2
  | joining => 1
  | returned _ => 0
  | panicked => 0

/-- `finish` has come back, with the writer's result or with its panic. -/
def Finish.isBack {ε : Type} : Finish ε → Bool
  | returned _ => true
  | panicked => true
  | _ => false

namespace MdbxWriteSink
variable {ι ε K S : Type} [DecidableEq ι] [DecidableEq K] [DecidableEq S]

section Steps
variable (R : Reth K S) (packed : Bool) (c : ℕ) (debugAssertions : Bool)
variable (faults : ℕ → ℕ → Option ε)

/-- A step that is not a new call of `on_branch_node`. -/
def DrainStep (σ σ' : MdbxWriteSink ι ε K S) : Prop :=
  Step R packed c debugAssertions faults σ σ' ∧ σ'.called = σ.called

/-- All sends have returned or failed, and `finish` has come back. -/
def Finished (σ : MdbxWriteSink ι ε K S) : Prop :=
  σ.finish.isBack = true ∧ ∀ i n, σ.workers i ≠ .sending n

def rank [Fintype ι] (σ : MdbxWriteSink ι ε K S) : ℕ :=
  ∑ i, (σ.workers i).rank+4*σ.channel.length+σ.writer.rank+σ.finish.rank

omit [DecidableEq K] [DecidableEq S] in
theorem rank_takeNode (w : Writer K S) (n : Node) :
    (takeNode c debugAssertions w n : WriterPhase ε K S).rank < 5 := by
  unfold takeNode
  dsimp only
  split_ifs <;> simp [WriterPhase.rank]

theorem rank_commitFull (w : Writer K S) : (commitFull R packed faults w).rank < 4 := by
  unfold commitFull
  split <;> simp [WriterPhase.rank]

omit [DecidableEq K] [DecidableEq S] in
theorem rank_leaveLoop (w : Writer K S) : (leaveLoop w : WriterPhase ε K S).rank < 3 := by
  unfold leaveLoop
  split_ifs <;> simp [WriterPhase.rank]

theorem rank_commitLast (w : Writer K S) : (commitLast R packed faults w).rank < 2 := by
  unfold commitLast
  split <;> simp [WriterPhase.rank]

variable {R packed c debugAssertions faults} in
theorem reaches_of_drainSteps {σ σ' : MdbxWriteSink ι ε K S} {k : ℕ}
    (h : StepsIn (DrainStep R packed c debugAssertions faults) σ k σ') :
    Reaches R packed c debugAssertions faults σ σ' ∧ σ'.called = σ.called := by
  induction h with
  | refl => exact ⟨.refl,rfl⟩
  | tail hr hs ih => exact ⟨ih.1.tail hs.1,hs.2.trans ih.2⟩

variable {R packed c debugAssertions faults} in
/-- Each step but a call uses up some of the work left. -/
theorem DrainStep.rank_lt [Fintype ι] {σ σ' : MdbxWriteSink ι ε K S}
    (h : DrainStep R packed c debugAssertions faults σ σ') : σ'.rank < σ.rank := by
  obtain ⟨hs,hcalled⟩ := h
  have hsum := fun i w => sum_update_add Worker.rank σ.workers i w
  cases hs with
  | call i n hw ho => simp at hcalled
  | send i n hw ha hroom =>
    have hi := hsum i .running
    have hrank : (σ.workers i).rank = 5 := by rw [hw]; rfl
    have hnew : Worker.running.rank = 0 := rfl
    simp only [rank,List.length_append,List.length_singleton]
    omega
  | sendFails i n hw ha =>
    have hi := hsum i .panicked
    have hrank : (σ.workers i).rank = 5 := by rw [hw]; rfl
    have hnew : Worker.panicked.rank = 0 := rfl
    simp only [rank]
    omega
  | receive w n rest hp hc =>
    have hrank : σ.writer.rank = 3 := by rw [hp]; rfl
    have hnew : (WriterPhase.received w n : WriterPhase ε K S).rank = 5 := rfl
    simp only [rank,hc,List.length_cons]
    omega
  | insert w n hp =>
    have hrank : σ.writer.rank = 5 := by rw [hp]; rfl
    have hnew := rank_takeNode (ε := ε) c debugAssertions w n
    simp only [rank]
    omega
  | commit w hp =>
    have hrank : σ.writer.rank = 4 := by rw [hp]; rfl
    have hnew := rank_commitFull R packed faults w
    simp only [rank]
    omega
  | hangUp w hp hc ho =>
    have hrank : σ.writer.rank = 3 := by rw [hp]; rfl
    have hnew := rank_leaveLoop (ε := ε) w
    simp only [rank]
    omega
  | flush w hp =>
    have hrank : σ.writer.rank = 2 := by rw [hp]; rfl
    have hnew := rank_commitLast R packed faults w
    simp only [rank]
    omega
  | exit outcome T hp =>
    have hrank : σ.writer.rank = 1 := by rw [hp]; rfl
    have hnew : (WriterPhase.ended outcome T).rank = 0 := rfl
    simp only [rank,List.length_nil]
    omega
  | finish hf hw =>
    have hrank : σ.finish.rank = 2 := by rw [hf]; rfl
    have hnew : (Finish.joining : Finish ε).rank = 1 := rfl
    simp only [rank]
    omega
  | join outcome T hf hp =>
    have hrank : σ.finish.rank = 1 := by rw [hf]; rfl
    have hnew : outcome.joined.rank = 0 := by cases outcome <;> rfl
    simp only [rank]
    omega

/-- A writer with something to take or to do can move, and leaves the callers alone. -/
theorem exists_writerStep {σ : MdbxWriteSink ι ε K S} (ha : σ.writer.receiverAlive = true)
    (h : σ.channel = [] → σ.senderOpen = false) :
    ∃ σ', DrainStep R packed c debugAssertions faults σ σ' ∧ σ'.finish = σ.finish := by
  cases hp : σ.writer with
  | receiving w =>
    cases hc : σ.channel with
    | nil => exact ⟨_,⟨.hangUp σ w hp hc (h hc),rfl⟩,rfl⟩
    | cons n rest => exact ⟨_,⟨.receive σ w n rest hp hc,rfl⟩,rfl⟩
  | received w n => exact ⟨_,⟨.insert σ w n hp,rfl⟩,rfl⟩
  | committing w => exact ⟨_,⟨.commit σ w hp,rfl⟩,rfl⟩
  | flushing w => exact ⟨_,⟨.flush σ w hp,rfl⟩,rfl⟩
  | returned outcome T => exact ⟨_,⟨.exit σ outcome T hp,rfl⟩,rfl⟩
  | ended outcome T => rw [hp] at ha; exact nomatch ha

/-- While a worker is in its send, some thread can move without anybody calling `finish`. -/
theorem exists_step_of_sending {σ : MdbxWriteSink ι ε K S} {i : ι} {n : Node}
    (hw : σ.workers i = .sending n) :
    ∃ σ', DrainStep R packed c debugAssertions faults σ σ' ∧ σ'.finish = σ.finish := by
  cases ha : σ.writer.receiverAlive with
  | false => exact ⟨_,⟨.sendFails σ i n hw ha,rfl⟩,rfl⟩
  | true =>
    by_cases hroom : σ.channel.length < channelCapacity
    · exact ⟨_,⟨.send σ i n hw ha hroom,rfl⟩,rfl⟩
    · -- a full channel holds something for the writer
      refine exists_writerStep R packed c debugAssertions faults ha fun hc => ?_
      rw [hc] at hroom
      exact absurd (by decide) hroom

variable (T : TrieTables K S)

/-- Reachable states drain. -/
theorem drains [Fintype ι] : Drains (DrainStep R packed c debugAssertions faults)
    (Reaches R packed c debugAssertions faults (start T)) (Finished (ι := ι)) rank where
  keeps hr hs := hr.tail hs.1
  lowers _ hs := hs.rank_lt
  progress {σ} hr hnot := by
    by_cases hsend : ∃ i n, σ.workers i = .sending n
    · obtain ⟨i,n,hw⟩ := hsend
      obtain ⟨σ',hs,-⟩ := exists_step_of_sending R packed c debugAssertions faults hw
      exact ⟨σ',hs⟩
    · push Not at hsend
      cases hf : σ.finish with
      | notCalled => exact ⟨_,.finish σ hf hsend,rfl⟩
      | joining =>
        have hclosed := closed_of_reaches hr (by rw [hf]; nofun)
        cases ha : σ.writer.receiverAlive with
        | true =>
          obtain ⟨σ',hs,-⟩ := exists_writerStep R packed c debugAssertions faults ha fun _ => hclosed
          exact ⟨σ',hs⟩
        | false =>
          cases hp : σ.writer with
          | ended outcome T' => exact ⟨_,.join σ outcome T' hf hp,rfl⟩
          | _ => rw [hp] at ha; exact nomatch ha
      | returned result => exact absurd ⟨by rw [hf]; rfl,hsend⟩ hnot
      | panicked => exact absurd ⟨by rw [hf]; rfl,hsend⟩ hnot

omit [DecidableEq K] [DecidableEq S] [DecidableEq ι] in
theorem rank_le [Fintype ι] {σ : MdbxWriteSink ι ε K S}
    (h : σ.channel.length ≤ channelCapacity) :
    σ.rank ≤ 5*Fintype.card ι+4*channelCapacity+7 := by
  have hworkers : ∑ i, (σ.workers i).rank ≤ 5*Fintype.card ι := by
    have hle : ∀ i ∈ Finset.univ, (σ.workers i).rank ≤ 5 := by
      intro i _
      cases σ.workers i <;> simp [Worker.rank]
    have hsum := Finset.sum_le_card_nsmul _ _ _ hle
    rw [Finset.card_univ,smul_eq_mul] at hsum
    omega
  have hwriter : σ.writer.rank ≤ 5 := by cases σ.writer <;> simp [WriterPhase.rank]
  have hfinish : σ.finish.rank ≤ 2 := by cases σ.finish <;> simp [Finish.rank]
  unfold rank
  omega

end Steps

section Hang
variable (R : Reth K S) (packed : Bool) (debugAssertions : Bool) (faults : ℕ → ℕ → Option ε)

/-- However the calls fail, no reachable state hangs. While a worker is in its send, some thread
can move without `finish` being called. Once no new calls come, at most so many steps are left,
whatever their order, and where none is possible all sends are over and `finish` has come back. -/
theorem never_hangs [Fintype ι] (chunkNodes : ℕ) (T : TrieTables K S) {σ : MdbxWriteSink ι ε K S}
    (h : Reaches R packed (max chunkNodes 1) debugAssertions faults (start T) σ) :
    (∀ i n, σ.workers i = .sending n → ∃ σ',
      DrainStep R packed (max chunkNodes 1) debugAssertions faults σ σ' ∧ σ'.finish = σ.finish) ∧
    (∀ k σ', StepsIn (DrainStep R packed (max chunkNodes 1) debugAssertions faults) σ k σ' →
      k ≤ 5*Fintype.card ι+4*65536+7 ∧
      ((∀ τ, ¬DrainStep R packed (max chunkNodes 1) debugAssertions faults σ' τ) → Finished σ')) ∧
    ∃ k σ', StepsIn (DrainStep R packed (max chunkNodes 1) debugAssertions faults) σ k σ' ∧
      Finished σ' := by
  have hc : 0 < max chunkNodes 1 := lt_of_lt_of_le Nat.one_pos (le_max_right _ _)
  have hdrains := drains (ι := ι) R packed (max chunkNodes 1) debugAssertions faults T
  refine ⟨fun i n hw => exists_step_of_sending R packed _ debugAssertions faults hw,
    fun k σ' hk => ⟨?_,?_⟩,hdrains.exists_done h⟩
  · obtain ⟨rs,rest,hi⟩ := inv_of_reaches hc h
    have hlen := hdrains.length_add_le h hk
    have hrank := rank_le hi.bounded
    have hcap : channelCapacity = 65536 := by decide
    omega
  · exact hdrains.done_of_stuck h hk

/-- A worker in its send over a database whose every call fails. -/
theorem never_hangs_sample :
    let σ : MdbxWriteSink Unit Unit Nibbles Nibbles := {
      (start {} : MdbxWriteSink Unit Unit Nibbles Nibbles) with
      workers := Function.update (fun _ => .running) () (.sending (ReferenceReth.sampleNode none 1))
      called := [ReferenceReth.sampleNode none 1] }
    ∃ k σ', StepsIn (DrainStep ReferenceReth.reth true (max 0 1) true fun _ _ => some ()) σ k σ' ∧
      Finished σ' := by
  intro σ
  have hr : Reaches ReferenceReth.reth true (max 0 1) true (fun _ _ => some ()) (start {}) σ :=
    .single (.call _ () (ReferenceReth.sampleNode none 1) rfl rfl)
  exact (never_hangs ReferenceReth.reth true true (fun _ _ => some ()) 0 {} hr).2.2

end Hang
end MdbxWriteSink
end TrieRebuild
