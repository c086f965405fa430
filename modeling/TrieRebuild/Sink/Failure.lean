import TrieRebuild.Sink.FinishingRun
import TrieRebuild.Trie.ReferenceReth

/-! A failing commit: the tables stay at the full chunks before it, `finish` does not report
success, and workers that send to the dead writer panic. -/
namespace TrieRebuild
open Foundation
namespace MdbxWriteSink
variable {ι ε K S : Type} [DecidableEq ι] [DecidableEq K] [DecidableEq S]

/-- The writer is back from its loop with an error, or gone with it. -/
def FailedWith (p : WriterPhase ε K S) (e : ε) (T' : TrieTables K S) : Prop :=
  p = .returned (.err e) T' ∨ p = .ended (.err e) T'

/-- The writer is in a commit, and one of that commit's database calls fails. -/
def CommitFailing (R : Reth K S) (packed : Bool) (faults : ℕ → ℕ → Option ε)
    (p : WriterPhase ε K S) : Prop :=
  ∃ w, (p = .committing w ∨ p = .flushing w) ∧
    ∃ i < (commit R packed w.chunk : Tx ε (TrieTables K S) ℕ).calls w.tables,
      faults w.written.chunks i ≠ none

/-- A call that does not return: it is still in its `send` or has panicked. -/
def Stuck (w : Worker) (n : Node) : Prop := w = .sending n ∨ w = .panicked

section Stable
variable {R : Reth K S} {packed : Bool} {c : ℕ} {debugAssertions : Bool}
variable {faults : ℕ → ℕ → Option ε} {T : TrieTables K S}

theorem FailedWith.step {σ σ' : MdbxWriteSink ι ε K S} {e : ε} {T' : TrieTables K S}
    (hs : Step R packed c debugAssertions faults σ σ') (h : FailedWith σ.writer e T') :
    FailedWith σ'.writer e T' := by
  rcases h with h | h
  · have hm := hs.writerMove
    generalize σ'.writer = p' at hm ⊢
    rw [h] at hm
    cases hm with
    | stays => exact .inl rfl
    | exit => exact .inr rfl
  · exact .inr (ended_stable hs h)

theorem FailedWith.reaches {σ σ' : MdbxWriteSink ι ε K S} {e : ε} {T' : TrieTables K S}
    (hr : Reaches R packed c debugAssertions faults σ σ') (h : FailedWith σ.writer e T') :
    FailedWith σ'.writer e T' := by
  induction hr with
  | refl => exact h
  | tail _ hs ih => exact ih.step hs

omit [DecidableEq K] [DecidableEq S] in
theorem FailedWith.tables_eq {p : WriterPhase ε K S} {e : ε} {T' : TrieTables K S}
    (h : FailedWith p e T') : p.tables = T' := by
  rcases h with rfl | rfl <;> rfl

/-- A failed writer has received a prefix of the accepted nodes and failed in its last commit. -/
theorem FailedWith.failedAt (hc : 0 < c) {σ : MdbxWriteSink ι ε K S} {e : ε} {T' : TrieTables K S}
    (hr : Reaches R packed c debugAssertions faults (start T) σ) (h : FailedWith σ.writer e T') :
    ∃ rs k, rs <+: σ.accepted ∧ FailedAt R packed c faults T rs e T' k ∧
      writeChunks R packed c debugAssertions faults T rs = (.err e,T') := by
  obtain ⟨rs,rest,hinv⟩ := inv_of_reaches hc hr
  have hw := hinv.writer
  have hpre : rs <+: σ.accepted := ⟨rest,hinv.accepted.symm⟩
  rcases h with h | h
  · rw [h] at hw
    cases hw with
    | returned sim hok herr =>
      obtain ⟨k,hk⟩ := herr e rfl
      exact ⟨rs,k,hpre,hk,sim⟩
  · rw [h] at hw
    cases hw with
    | ended sim hok herr =>
      obtain ⟨k,hk⟩ := herr e rfl
      exact ⟨rs,k,hpre,hk,sim⟩

/-- After a failure `finish` can only report that error. -/
theorem FailedWith.finish {σ : MdbxWriteSink ι ε K S} {e : ε} {T' : TrieTables K S}
    (hr : Reaches R packed c debugAssertions faults (start T) σ) (h : FailedWith σ.writer e T') :
    σ.finish = .notCalled ∨ σ.finish = .joining ∨ σ.finish = .returned (.error e) := by
  rcases finish_of_reaches hr with hf | hf | ⟨outcome,T'',hp,hf⟩
  · exact .inl hf
  · exact .inr (.inl hf)
  · rcases h with h | h
    · rw [hp] at h; cases h
    · rw [hp] at h
      cases h
      exact .inr (.inr hf)

/-- A writer in a commit has some chunks behind it and the open one in hand. -/
theorem exists_after (hc : 0 < c) {σ : MdbxWriteSink ι ε K S} {w : Writer K S}
    (hr : Reaches R packed c debugAssertions faults (start T) σ)
    (hp : σ.writer = .committing w ∨ σ.writer = .flushing w) :
    ∃ chunks tail, w = Writer.after R packed T chunks tail := by
  obtain ⟨rs,rest,hinv⟩ := inv_of_reaches hc hr
  have hw := hinv.writer
  rcases hp with hp | hp
  · rw [hp] at hw
    cases hw with
    | committing h hfull sim => exact ⟨_,_,rfl⟩
  · rw [hp] at hw
    cases hw with
    | flushing h hpos hclosed sim => exact ⟨_,_,rfl⟩

/-- A failing commit can only end in its error. -/
theorem CommitFailing.step (hc : 0 < c) {σ σ' : MdbxWriteSink ι ε K S}
    (hr : Reaches R packed c debugAssertions faults (start T) σ)
    (h : CommitFailing R packed faults σ.writer)
    (hs : Step R packed c debugAssertions faults σ σ') :
    σ'.writer = σ.writer ∨ ∃ e, FailedWith σ'.writer e σ.tables := by
  obtain ⟨w,hp,hfail⟩ := h
  obtain ⟨chunks,tail,rfl⟩ := exists_after hc hr hp
  obtain ⟨e,-,he⟩ := Writer.commitChunk_err R packed T chunks tail hfail
  have hm := hs.writerMove
  unfold tables
  generalize σ'.writer = p' at hm ⊢
  rcases hp with hp | hp
  · rw [hp] at hm ⊢
    cases hm with
    | stays => exact .inl rfl
    | commit => exact .inr ⟨e,.inl (by rw [commitFull,he]; rfl)⟩
  · rw [hp] at hm ⊢
    cases hm with
    | stays => exact .inl rfl
    | flush => exact .inr ⟨e,.inl (by rw [commitLast,he]; rfl)⟩

/-- An `Ok` of `finish` means that no commit of the accepted nodes has failed. -/
theorem commits_of_finish_ok (hc : 0 < c) {σ : MdbxWriteSink ι ε K S} {written : Written}
    (hr : Reaches R packed c debugAssertions faults (start T) σ)
    (hf : σ.finish = .returned (.ok written)) (k : ℕ) (hk : k*c < σ.accepted.length) :
    CommitSucceeds R packed c faults T σ.accepted k := by
  obtain ⟨T',hp⟩ := ended_of_finish_ok hr hf
  obtain ⟨rs,rest,hinv⟩ := inv_of_reaches hc hr
  have hw := hinv.writer
  have hacc := hinv.accepted
  rw [hp] at hw
  cases hw with
  | ended sim hok herr =>
    obtain ⟨-,rfl⟩ := hok written rfl
    rw [List.append_nil] at hacc
    rw [hacc] at hk ⊢
    obtain ⟨-,-,hcommits⟩ := writeLoop_ok (Chunked.nil hc) sim
    exact hcommits k (Nat.zero_le k) hk

/-- A call stays stuck once the receiver is gone. -/
theorem Stuck.step {σ σ' : MdbxWriteSink ι ε K S} {outcome : Outcome ε} {T' : TrieTables K S}
    {i : ι} {n : Node} (hs : Step R packed c debugAssertions faults σ σ')
    (he : σ.writer = .ended outcome T') (h : Stuck (σ.workers i) n) : Stuck (σ'.workers i) n := by
  cases hs with
  | call j m hw ho =>
    have hij : i ≠ j := by
      intro heq
      subst heq
      rcases h with h | h <;> rw [hw] at h <;> cases h
    change Stuck (Function.update σ.workers j _ i) n
    rwa [Function.update_of_ne hij]
  | send j m hw ha hroom => rw [he] at ha; cases ha
  | sendFails j m hw ha =>
    by_cases hij : i = j
    · subst hij
      exact .inr (Function.update_self ..)
    · change Stuck (Function.update σ.workers j _ i) n
      rwa [Function.update_of_ne hij]
  | _ => exact h

theorem Stuck.reaches {σ σ' : MdbxWriteSink ι ε K S} {outcome : Outcome ε} {T' : TrieTables K S}
    {i : ι} {n : Node} (hr : Reaches R packed c debugAssertions faults σ σ')
    (he : σ.writer = .ended outcome T') (h : Stuck (σ.workers i) n) :
    σ'.writer = .ended outcome T' ∧ Stuck (σ'.workers i) n := by
  induction hr with
  | refl => exact ⟨he,h⟩
  | tail _ hs ih => exact ⟨ended_stable hs ih.1,ih.2.step hs ih.1⟩

end Stable

/-- For every stream, chunk size, earlier contents and key encoding: when some call of the `k`-th
commit (counted from zero) fails and the earlier ones succeed, `write_chunks` returns its error and
the tables are the earlier contents overlaid with exactly the first `k` chunks. In every
interleaving a commit with a failing call ends the writer with its error and leaves the tables as
they were; a failed writer leaves such a prefix of the accepted nodes for good and `finish` never
returns `Ok`, which it does only when every commit of the accepted nodes has succeeded; and a call
in progress or made after the writer thread has ended can only panic. -/
theorem failed_commit_keeps_earlier_chunks (R : Reth K S) (packed debugAssertions : Bool)
    (chunkNodes : ℕ) (faults : ℕ → ℕ → Option ε) (T : TrieTables K S) :
    (∀ rs k, k*max chunkNodes 1 < rs.length →
      (∀ j < k, CommitSucceeds R packed (max chunkNodes 1) faults T rs j) →
      (∀ j ≤ k, AssertionsPass (max chunkNodes 1) debugAssertions rs j) →
      CommitFails R packed (max chunkNodes 1) faults T rs k →
      ∃ e, (∃ i, faults k i = some e) ∧
        writeChunks R packed (max chunkNodes 1) debugAssertions faults T rs =
          (.err e,T.overlaid (R.adapter packed) (rs.take (k*max chunkNodes 1)))) ∧
    (∀ σ σ' : MdbxWriteSink ι ε K S,
      Reaches R packed (max chunkNodes 1) debugAssertions faults (start T) σ →
      CommitFailing R packed faults σ.writer →
      Step R packed (max chunkNodes 1) debugAssertions faults σ σ' →
      σ'.writer = σ.writer ∨ ∃ e, FailedWith σ'.writer e σ.tables) ∧
    (∀ σ : MdbxWriteSink ι ε K S, ∀ e T',
      Reaches R packed (max chunkNodes 1) debugAssertions faults (start T) σ →
      FailedWith σ.writer e T' →
      (∃ rs k, rs <+: σ.accepted ∧ FailedAt R packed (max chunkNodes 1) faults T rs e T' k ∧
        writeChunks R packed (max chunkNodes 1) debugAssertions faults T rs = (.err e,T')) ∧
      ∀ σ', Reaches R packed (max chunkNodes 1) debugAssertions faults σ σ' →
        σ'.tables = T' ∧ ∀ written, σ'.finish ≠ .returned (.ok written)) ∧
    (∀ σ : MdbxWriteSink ι ε K S, ∀ written,
      Reaches R packed (max chunkNodes 1) debugAssertions faults (start T) σ →
      σ.finish = .returned (.ok written) → ∀ k, k*max chunkNodes 1 < σ.accepted.length →
        CommitSucceeds R packed (max chunkNodes 1) faults T σ.accepted k) ∧
    ∀ σ : MdbxWriteSink ι ε K S, ∀ outcome T' i n, σ.writer = .ended outcome T' →
      σ.workers i = .sending n →
      ∀ σ', Reaches R packed (max chunkNodes 1) debugAssertions faults σ σ' →
        σ'.workers i = .panicked ∨ σ'.workers i = .sending n ∧
          ∃ σ'', Step R packed (max chunkNodes 1) debugAssertions faults σ' σ'' ∧
            σ''.workers i = .panicked := by
  have hc : 0 < max chunkNodes 1 := lt_of_lt_of_le Nat.one_pos (le_max_right _ _)
  refine ⟨fun rs k => writeChunks_err R packed _ debugAssertions faults T hc rs k,
    fun σ σ' hr hf hs => hf.step hc hr hs,?_,fun σ written hr hf => commits_of_finish_ok hc hr hf,
    ?_⟩
  · intro σ e T' hr hf
    refine ⟨hf.failedAt hc hr,fun σ' hr' => ⟨(hf.reaches hr').tables_eq,fun written ho => ?_⟩⟩
    rcases (hf.reaches hr').finish (hr.trans hr') with h | h | h <;> rw [ho] at h <;> cases h
  · intro σ outcome T' i n he hw σ' hr'
    obtain ⟨he',hstuck⟩ := Stuck.reaches hr' he (.inl hw)
    rcases hstuck with hsend | hpanic
    · have hdead : σ'.writer.receiverAlive = false := by rw [he']; rfl
      exact .inr ⟨hsend,_,.sendFails σ' i n hsend hdead,Function.update_self ..⟩
    · exact .inl hpanic

/-- The second of two transactions, as it cannot be opened. -/
theorem commitFailing_second {w : Writer Nibbles Nibbles} {p : WriterPhase Unit Nibbles Nibbles}
    {T : TrieTables Nibbles Nibbles} {chunks : List (List Node)} {tail : List Node}
    (hp : p = .committing w) (hw : w = Writer.after ReferenceReth.reth true T chunks tail)
    (hlen : chunks.length = 1) :
    CommitFailing ReferenceReth.reth true (fun k _ => if k = 1 then some () else none) p := by
  subst hw
  refine ⟨_,.inl hp,0,lt_of_lt_of_le Nat.zero_lt_two (two_le_commitCalls _ _ _ tail),?_⟩
  simp [Writer.after,hlen]

/-- Two nodes in chunks of one, and the second transaction cannot be opened: the first node stays
in the tables, both for `write_chunks` and in a run of the sink, where a third call panics. -/
theorem failed_commit_keeps_earlier_chunks_sample :
    let n := ReferenceReth.sampleNode none 1
    let m := ReferenceReth.sampleNode (some B256.zero) 1
    let faults := fun (k : ℕ) (_ : ℕ) => if k = 1 then some () else none
    let T := ({} : TrieTables Nibbles Nibbles).overlaid ReferenceReth.pathAdapter [n]
    writeChunks ReferenceReth.reth true 1 true faults {} [n,m] = (.err (),T) ∧
    ∃ σ : MdbxWriteSink Unit Unit Nibbles Nibbles,
      Reaches ReferenceReth.reth true 1 true faults (start {}) σ ∧ σ.accepted = [n,m] ∧
      σ.workers () = .sending n ∧
      ∀ σ', Reaches ReferenceReth.reth true 1 true faults σ σ' →
        σ'.tables = T ∧ (∀ written, σ'.finish ≠ .returned (.ok written)) ∧
        (σ'.workers () = .panicked ∨ σ'.workers () = .sending n) := by
  intro n m faults T
  obtain ⟨hchunks,hstep,hfailed,-,hdead⟩ := @failed_commit_keeps_earlier_chunks Unit Unit Nibbles
    Nibbles _ _ _ ReferenceReth.reth true true 0 faults {}
  refine ⟨?_,?_⟩
  · have hcalls := two_le_commitCalls (ε := Unit) ReferenceReth.reth true T [m]
    obtain ⟨e,-,h⟩ := hchunks [n,m] 1 (by decide) (fun j hj _ _ => if_neg (by omega))
      (fun j hj _ => by
        have hn : ([n,m].map Node.key).Nodup := by decide
        exact hn.sublist ((chunkAt_sublist _ j [n,m]).map _))
      ⟨0,lt_of_lt_of_le Nat.zero_lt_two hcalls,by simp [faults]⟩
    exact h
  · -- the first node is committed, the second fills the next chunk
    obtain ⟨σ₁,chunks,tail,hr₁,hch,hq₁⟩ : ∃ (σ : MdbxWriteSink Unit Unit Nibbles Nibbles)
        (chunks : List (List Node)) (tail : List Node),
        Reaches ReferenceReth.reth true 1 true faults (start {}) σ ∧ Chunked 1 chunks tail [n] ∧
        Quiet σ [n] (.receiving (Writer.after ReferenceReth.reth true {} chunks tail)) :=
      exists_quiet true Nat.one_pos () (by decide) fun k hk j => if_neg (by
        rw [List.length_singleton,Nat.div_one] at hk
        exact Nat.ne_of_lt hk)
    obtain rfl : tail = [] := List.length_eq_zero_iff.mp (Nat.lt_one_iff.mp hch.length_lt)
    have hflat : chunks.flatten = [n] := by rw [← hch.flatten,List.append_nil]
    have hlen : chunks.length = 1 := hch.length_chunks.trans (Nat.div_one _)
    obtain ⟨σ₂,hr₂,hq₂⟩ := hq₁.pass ReferenceReth.reth true 1 true faults () m
    rw [takeNode_after true List.not_mem_nil,
      if_pos (show 1 ≤ ([] : List Node).length+1 from Nat.le_refl 1)] at hq₂
    obtain ⟨σ₃,hs₃,hq₃⟩ := hq₂.commit ReferenceReth.reth true 1 true faults
    have hT : σ₂.tables = T := by
      rw [tables,hq₂.writer]
      change ({} : TrieTables Nibbles Nibbles).overlaid _ chunks.flatten = _
      rw [hflat]
      rfl
    have halive : σ₃.writer.receiverAlive = true := by
      rw [hq₃.writer]
      exact receiverAlive_commitFull _
    have hreach := hr₁.trans hr₂
    rcases hstep σ₂ σ₃ hreach (commitFailing_second hq₂.writer rfl hlen) hs₃ with hsame | ⟨e,hfail⟩
    · rw [hq₂.writer,hq₃.writer,commitFull] at hsame
      split at hsame <;> cases hsame
    · rw [hT] at hfail
      have hreturned : σ₃.writer = .returned (.err e) T := by
        rcases hfail with h | h
        · exact h
        · rw [h] at halive
          cases halive
      let σ₄ : MdbxWriteSink Unit Unit Nibbles Nibbles := { σ₃ with
        writer := .ended (.err e) T
        channel := [] }
      let σ₅ : MdbxWriteSink Unit Unit Nibbles Nibbles := { σ₄ with
        workers := Function.update σ₄.workers () (.sending n)
        called := σ₄.called ++ [n] }
      have hr₅ : Reaches ReferenceReth.reth true 1 true faults (start {}) σ₅ :=
        ((hreach.tail hs₃).tail (.exit σ₃ _ _ hreturned)).tail
          (.call σ₄ () n (hq₃.running ()) hq₃.senderOpen)
      refine ⟨σ₅,hr₅,hq₃.accepted,rfl,fun σ' hr' => ?_⟩
      obtain ⟨-,hkeeps⟩ := hfailed σ₅ e T hr₅ (.inr rfl)
      obtain ⟨hT',hfinish⟩ := hkeeps σ' hr'
      refine ⟨hT',hfinish,?_⟩
      rcases hdead σ₅ _ T () n rfl rfl σ' hr' with hpanic | ⟨hsend,-⟩
      · exact .inl hpanic
      · exact .inr hsend

end MdbxWriteSink
end TrieRebuild
