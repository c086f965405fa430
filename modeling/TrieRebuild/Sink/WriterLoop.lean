import TrieRebuild.Foundation.Chunking
import TrieRebuild.Sink.WriteChunks

/-! Runs of the writer loop: what it has committed after any prefix of the stream, how it ends
without faults, and what a failing commit leaves behind. -/
namespace TrieRebuild
open Foundation
variable {ε K S : Type} [DecidableEq K] [DecidableEq S]

section Run
variable (R : Reth K S) (packed : Bool) (c : ℕ) (debugAssertions : Bool)
variable (faults : ℕ → ℕ → Option ε) (T : TrieTables K S)

/-- Calls made by the `k`-th commit of a stream, on the tables the earlier ones left. -/
def callsOfCommit (rs : List Node) (k : ℕ) : ℕ :=
  commitCalls (ε := ε) R packed (T.overlaid (R.adapter packed) (rs.take (k*c))) (chunkAt c rs k)

/-- No call of the `k`-th commit fails. -/
def CommitSucceeds (rs : List Node) (k : ℕ) : Prop :=
  ∀ i < callsOfCommit (ε := ε) R packed c T rs k, faults k i = none

/-- Some call of the `k`-th commit fails: opening, a write, or the commit itself. -/
def CommitFails (rs : List Node) (k : ℕ) : Prop :=
  ∃ i < callsOfCommit (ε := ε) R packed c T rs k, faults k i ≠ none

/-- The `k`-th commit is the one the stream ends in, one of its calls fails with `e`, and the
tables hold the full chunks before it. -/
structure FailedAt (rs : List Node) (e : ε) (T' : TrieTables K S) (k : ℕ) : Prop where
  reached : k*c < rs.length
  last : rs.length ≤ (k+1)*c
  call : ∃ i < callsOfCommit (ε := ε) R packed c T rs k, faults k i = some e
  tables : T' = T.overlaid (R.adapter packed) (rs.take (k*c))

/-- The assertions of a debug build pass in the `k`-th chunk: no node in it repeats a key. -/
def AssertionsPass (rs : List Node) (k : ℕ) : Prop :=
  debugAssertions = true → ((chunkAt c rs k).map Node.key).Nodup

variable {R packed c debugAssertions faults T}

theorem callsOfCommit_append {rs : List Node} {k : ℕ} (h : (k+1)*c ≤ rs.length) (rest : List Node) :
    callsOfCommit (ε := ε) R packed c T (rs ++ rest) k =
      callsOfCommit (ε := ε) R packed c T rs k := by
  have hk : k*c ≤ rs.length := le_trans (Nat.mul_le_mul_right c (Nat.le_succ k)) h
  rw [callsOfCommit,callsOfCommit,chunkAt_append h,List.take_append_of_le_length hk]

/-- The commit that closes the open chunk. -/
theorem callsOfCommit_close {chunks : List (List Node)} {tail rs : List Node}
    (h : Chunked c chunks tail rs) (n : Node) :
    callsOfCommit (ε := ε) R packed c T (rs ++ [n]) chunks.length =
      commitCalls (ε := ε) R packed (T.overlaid (R.adapter packed) chunks.flatten)
        (tail ++ [n]) := by
  have hlt := h.length_lt
  rw [callsOfCommit,h.flatten_eq_take,h.chunkAt_length,
    List.take_of_length_le (by rw [List.length_append,List.length_singleton]; omega)]

/-- The commit of the open chunk at the end of the stream. -/
theorem callsOfCommit_flush {chunks : List (List Node)} {tail rs : List Node}
    (h : Chunked c chunks tail rs) :
    callsOfCommit (ε := ε) R packed c T rs chunks.length =
      commitCalls (ε := ε) R packed (T.overlaid (R.adapter packed) chunks.flatten) tail := by
  have ht := h.flatten_eq_take []
  rw [List.append_nil] at ht
  rw [callsOfCommit,ht,h.tail_eq]

/-- The assertion passes on a key that is new in the chunk. -/
theorem prev_passes (tail : List Node) (n : Node)
    (hp : debugAssertions = true → n.key ∉ tail.map Node.key) :
    (debugAssertions && (latest (tail.map Node.binding) n.key).isSome) = false := by
  rw [Bool.and_eq_false_imp]
  intro hd
  rw [Bool.eq_false_iff,ne_eq,latest_isSome_iff]
  exact hp hd

/-- A failed commit of the chunk a node has filled. -/
theorem failedAt_close {chunks : List (List Node)} {tail rs : List Node}
    (h : Chunked c chunks tail rs) {n : Node} (hfull : c ≤ tail.length+1) {e : ε}
    (hcall : ∃ i < commitCalls (ε := ε) R packed (T.overlaid (R.adapter packed) chunks.flatten)
      (tail ++ [n]), faults chunks.length i = some e) :
    FailedAt R packed c faults T (rs ++ [n]) e
      (Writer.after R packed T chunks (tail ++ [n])).tables chunks.length where
  reached := by
    rw [List.length_append,List.length_singleton,h.length_eq]
    omega
  last := by
    have := h.length_lt
    rw [List.length_append,List.length_singleton,h.length_eq,Nat.succ_mul]
    omega
  call := by rwa [callsOfCommit_close h]
  tables := by
    rw [h.flatten_eq_take]
    rfl

/-- A failed commit of the chunk left open at the end. -/
theorem failedAt_flush {chunks : List (List Node)} {tail rs : List Node}
    (h : Chunked c chunks tail rs) (hpos : 0 < tail.length) {e : ε}
    (hcall : ∃ i < commitCalls (ε := ε) R packed (T.overlaid (R.adapter packed) chunks.flatten)
      tail, faults chunks.length i = some e) :
    FailedAt R packed c faults T rs e (Writer.after R packed T chunks tail).tables
      chunks.length where
  reached := by
    rw [h.length_eq]
    omega
  last := by
    have := h.length_lt
    rw [h.length_eq,Nat.succ_mul]
    omega
  call := by rwa [callsOfCommit_flush h]
  tables := by
    have ht := h.flatten_eq_take []
    rw [List.append_nil] at ht
    rw [ht]
    rfl

/-- A node that passes the assertion and does not fill the chunk. -/
theorem writeLoop_push (chunks : List (List Node)) (tail : List Node) (n : Node) (rest : List Node)
    (hp : debugAssertions = true → n.key ∉ tail.map Node.key) (hlt : tail.length+1 < c) :
    writeLoop R packed c debugAssertions faults (Writer.after R packed T chunks tail) (n::rest) =
      writeLoop R packed c debugAssertions faults
        (Writer.after R packed T chunks (tail ++ [n])) rest := by
  have hprev := prev_passes tail n hp
  have hpend : ¬ (Writer.after R packed T chunks (tail ++ [n])).pending ≥ c := by
    simp only [Writer.after,List.length_append,List.length_singleton]
    omega
  rw [writeLoop_cons,Writer.receive_after,hprev,if_neg Bool.false_ne_true,if_neg hpend]

/-- A node that passes the assertion and fills the chunk: the loop goes on as its commit does. -/
theorem writeLoop_close (chunks : List (List Node)) (tail : List Node) (n : Node)
    (rest : List Node) (hp : debugAssertions = true → n.key ∉ tail.map Node.key)
    (hfull : c ≤ tail.length+1) :
    writeLoop R packed c debugAssertions faults (Writer.after R packed T chunks tail) (n::rest) =
      afterCommit R packed c debugAssertions faults
        (Writer.after R packed T chunks (tail ++ [n])) rest := by
  have hprev := prev_passes tail n hp
  have hpend : (Writer.after R packed T chunks (tail ++ [n])).pending ≥ c := by
    simpa [Writer.after] using hfull
  rw [writeLoop_cons,Writer.receive_after,hprev,if_neg Bool.false_ne_true,if_pos hpend]

/-- An assertion that passes in the chunk being filled. -/
theorem AssertionsPass.not_mem {chunks : List (List Node)} {tail rs : List Node}
    (h : Chunked c chunks tail rs) {n : Node}
    (hp : AssertionsPass c debugAssertions (rs ++ [n]) chunks.length) :
    debugAssertions = true → n.key ∉ tail.map Node.key := by
  intro hd
  have hlt := h.length_lt
  have hnodup := hp hd
  rw [h.chunkAt_length,List.take_of_length_le (by
    rw [List.length_append,List.length_singleton]; omega),List.map_append] at hnodup
  exact fun hm => List.disjoint_of_nodup_append hnodup hm (by simp)

theorem AssertionsPass.of_append {rs rest : List Node} {k : ℕ}
    (h : AssertionsPass c debugAssertions (rs ++ rest) k) :
    AssertionsPass c debugAssertions rs k :=
  fun hd => (h hd).sublist ((chunkAt_append_sublist c k rs rest).map _)

variable (R packed c debugAssertions faults T)

/-- As long as commits succeed and assertions pass, the loop holds the stream cut into chunks. -/
theorem writeLoop_holds (hc : 0 < c) (rs : List Node)
    (hok : ∀ k < rs.length/c, CommitSucceeds R packed c faults T rs k)
    (hp : ∀ k ≤ rs.length/c, AssertionsPass c debugAssertions rs k) :
    ∃ chunks tail, Chunked c chunks tail rs ∧ ∀ rest,
      writeChunks R packed c debugAssertions faults T (rs ++ rest) =
        writeLoop R packed c debugAssertions faults (Writer.after R packed T chunks tail) rest := by
  induction rs using List.reverseRecOn with
  | nil => exact ⟨[],[],Chunked.nil hc,fun _ => rfl⟩
  | append_singleton rs n ih =>
    have hmono : rs.length/c ≤ (rs ++ [n]).length/c := by
      apply Nat.div_le_div_right
      simp
    obtain ⟨chunks,tail,h,hrun⟩ := ih
      (fun k hk => by
        have hkc : (k+1)*c ≤ rs.length :=
          le_trans (Nat.mul_le_mul_right c (by omega)) (Nat.div_mul_le_self _ c)
        have hs := hok k (by omega)
        unfold CommitSucceeds at hs ⊢
        rwa [callsOfCommit_append hkc] at hs)
      (fun k hk => (hp k (by omega)).of_append)
    have hlen := h.length_chunks
    have hpass := AssertionsPass.not_mem h (hp chunks.length (by omega))
    by_cases hfull : c ≤ tail.length+1
    · have hclose := h.close n hfull
      have hnew := hclose.length_chunks
      rw [List.length_append,List.length_singleton] at hnew
      have hs := hok chunks.length (by omega)
      unfold CommitSucceeds at hs
      rw [callsOfCommit_close h] at hs
      refine ⟨_,_,hclose,fun rest => ?_⟩
      rw [List.append_assoc,List.singleton_append,hrun,writeLoop_close chunks tail n rest hpass hfull,
        afterCommit,Writer.commitChunk_ok R packed T chunks (tail ++ [n]) hs]
    · refine ⟨_,_,h.push n (by omega),fun rest => ?_⟩
      rw [List.append_assoc,List.singleton_append,hrun,
        writeLoop_push chunks tail n rest hpass (by omega)]

/-- Without faults the loop stores the whole stream, in as few chunks as it fits. -/
theorem writeChunks_ok (hc : 0 < c) (rs : List Node)
    (hok : ∀ k < rs.length ⌈/⌉ c, CommitSucceeds R packed c faults T rs k)
    (hp : ∀ k, AssertionsPass c debugAssertions rs k) :
    ∃ chunks tail, Chunked c chunks tail rs ∧
      writeChunks R packed c debugAssertions faults T rs =
        (.ok ⟨(chunks.map chunkEntries).sum+chunkEntries tail,rs.length ⌈/⌉ c⟩,
          T.overlaid (R.adapter packed) rs) := by
  have hdiv : rs.length/c ≤ rs.length ⌈/⌉ c := by
    rw [Nat.ceilDiv_eq_add_pred_div]
    exact Nat.div_le_div_right (by omega)
  obtain ⟨chunks,tail,h,hrun⟩ := writeLoop_holds R packed c debugAssertions faults T
    hc rs (fun k hk => hok k (by omega)) (fun k _ => hp k)
  refine ⟨chunks,tail,h,?_⟩
  have hr := hrun []
  rw [List.append_nil] at hr
  rw [hr,writeLoop,flushChunk]
  have hceil := h.ceilDiv
  by_cases ht : tail = []
  · subst ht
    have hflat := h.flatten
    rw [List.append_nil] at hflat
    rw [if_pos rfl,Nat.add_zero] at hceil
    simp [Writer.after,hceil,hflat]
  · have hpos := List.length_pos_iff.mpr ht
    rw [if_neg ht] at hceil
    have hs := hok chunks.length (by omega)
    unfold CommitSucceeds at hs
    rw [callsOfCommit_flush h] at hs
    rw [if_pos (show (Writer.after R packed T chunks tail).pending > 0 from hpos),
      Writer.commitChunk_ok R packed T chunks tail hs]
    simp [Writer.after,hceil,h.flatten]

/-- A failing commit ends the loop with its error, and leaves the tables with the full chunks
before it. -/
theorem writeChunks_err (hc : 0 < c) (rs : List Node) (k : ℕ) (hk : k*c < rs.length)
    (hok : ∀ j < k, CommitSucceeds R packed c faults T rs j)
    (hp : ∀ j ≤ k, AssertionsPass c debugAssertions rs j)
    (hfail : CommitFails R packed c faults T rs k) :
    ∃ e, (∃ i, faults k i = some e) ∧ writeChunks R packed c debugAssertions faults T rs =
      (.err e,T.overlaid (R.adapter packed) (rs.take (k*c))) := by
  unfold CommitFails at hfail
  -- the nodes received before the failing commit is due
  by_cases hlong : (k+1)*c ≤ rs.length
  · obtain ⟨pre,n,rest,hsplit,hplen,hpdiv⟩ := exists_closing hc hlong
    have hsucc : (k+1)*c = k*c+c := Nat.succ_mul k c
    have hsplit' : rs = (pre ++ [n]) ++ rest := by simpa using hsplit
    have hlast : (k+1)*c ≤ (pre ++ [n]).length := by
      rw [List.length_append,List.length_singleton]
      omega
    obtain ⟨chunks,tail,h,hrun⟩ := writeLoop_holds R packed c debugAssertions faults T hc pre
      (fun j hj => by
        have hjc : (j+1)*c ≤ pre.length := by
          have := Nat.mul_le_mul_right c (show j+1 ≤ k by omega)
          omega
        have hs := hok j (by omega)
        unfold CommitSucceeds at hs ⊢
        rwa [hsplit,callsOfCommit_append hjc] at hs)
      (fun j hj => by
        have hpj := hp j (by omega)
        rw [hsplit] at hpj
        exact hpj.of_append)
    have hlen : chunks.length = k := h.length_chunks.trans hpdiv
    have htail : tail.length+1 = c := by
      have := h.length_eq
      rw [hlen] at this
      omega
    have hpass := AssertionsPass.not_mem h (n := n) (by
      have hpk := hp chunks.length (by omega)
      rw [hsplit'] at hpk
      exact hpk.of_append)
    rw [hsplit',callsOfCommit_append hlast,← hlen,callsOfCommit_close h] at hfail
    obtain ⟨e,⟨i,_,hi⟩,he⟩ := Writer.commitChunk_err R packed T chunks (tail ++ [n]) hfail
    refine ⟨e,⟨i,hlen ▸ hi⟩,?_⟩
    have hflat := h.flatten_eq_take (n::rest)
    rw [hlen,← hsplit] at hflat
    rw [hflat]
    conv_lhs => rw [hsplit]
    rw [hrun,writeLoop_close chunks tail n rest hpass (by omega),afterCommit,he]
    rfl
  · have hdiv : rs.length/c = k := by
      have h1 := (Nat.le_div_iff_mul_le hc).mpr (show k*c ≤ rs.length by omega)
      have h2 := (Nat.div_lt_iff_lt_mul hc).mpr (show rs.length < (k+1)*c by omega)
      omega
    obtain ⟨chunks,tail,h,hrun⟩ := writeLoop_holds R packed c debugAssertions faults T
      hc rs (fun j hj => hok j (by omega)) (fun j hj => hp j (by omega))
    have hlen : chunks.length = k := h.length_chunks.trans hdiv
    have hpos : tail.length > 0 := by
      have := h.length_eq
      rw [hlen] at this
      omega
    rw [← hlen,callsOfCommit_flush h] at hfail
    obtain ⟨e,⟨i,_,hi⟩,he⟩ := Writer.commitChunk_err R packed T chunks tail hfail
    refine ⟨e,⟨i,hlen ▸ hi⟩,?_⟩
    have hflat := h.flatten_eq_take []
    rw [List.append_nil,hlen] at hflat
    have hr := hrun []
    rw [List.append_nil] at hr
    rw [hr,writeLoop,flushChunk,
      if_pos (show (Writer.after R packed T chunks tail).pending > 0 from hpos),he,hflat]
    rfl

variable {R packed c debugAssertions faults T}

/-- An end that returns `Ok` has committed the open chunk. -/
theorem flushChunk_ok {chunks : List (List Node)} {tail rs : List Node} {written : Written}
    {T' : TrieTables K S} (h : Chunked c chunks tail rs)
    (hr : flushChunk R packed faults (Writer.after R packed T chunks tail) = (.ok written,T')) :
    written = ⟨(chunks.map chunkEntries).sum+chunkEntries tail,rs.length ⌈/⌉ c⟩ ∧
      T' = T.overlaid (R.adapter packed) rs ∧
      ∀ k, chunks.length ≤ k → k*c < rs.length → CommitSucceeds R packed c faults T rs k := by
  have hceil := h.ceilDiv
  have hlen := h.length_eq
  by_cases ht : tail = []
  · subst ht
    have hflat := h.flatten
    rw [List.append_nil] at hflat
    rw [if_pos rfl,Nat.add_zero] at hceil
    rw [flushChunk,if_neg (show ¬(Writer.after R packed T chunks []).pending > 0 from
      Nat.lt_irrefl 0)] at hr
    cases hr
    refine ⟨by simp [Writer.after,hceil],by simp [Writer.after,hflat],fun k hk hlt => ?_⟩
    -- no node is left for another commit
    have := Nat.mul_le_mul_right c hk
    rw [List.length_nil] at hlen
    omega
  · have hpos := List.length_pos_iff.mpr ht
    rw [if_neg ht] at hceil
    rw [flushChunk,if_pos (show (Writer.after R packed T chunks tail).pending > 0 from hpos)] at hr
    rcases Writer.commitChunk_cases R packed T faults chunks tail with ⟨hcalls,hok⟩ | ⟨e,-,herr⟩
    · rw [hok] at hr
      cases hr
      refine ⟨by simp [Writer.after,hceil],by simp [Writer.after,h.flatten],fun k hk hlt => ?_⟩
      obtain rfl : chunks.length = k := by
        by_contra hne
        have := Nat.mul_le_mul_right c (show chunks.length+1 ≤ k by omega)
        have := h.length_lt
        rw [Nat.succ_mul] at *
        omega
      rw [CommitSucceeds,callsOfCommit_flush h]
      exact hcalls
    · rw [herr] at hr
      cases hr

/-- A loop that ends well has committed the whole stream, on any schedule of faults: none of its
commits has failed. -/
theorem writeLoop_ok {rest : List Node} {chunks : List (List Node)} {tail rs : List Node}
    {written : Written} {T' : TrieTables K S} (h : Chunked c chunks tail rs)
    (hr : writeLoop R packed c debugAssertions faults (Writer.after R packed T chunks tail) rest =
      (.ok written,T')) :
    (∃ chunks' tail', Chunked c chunks' tail' (rs ++ rest) ∧
      written = ⟨(chunks'.map chunkEntries).sum+chunkEntries tail',(rs ++ rest).length ⌈/⌉ c⟩) ∧
      T' = T.overlaid (R.adapter packed) (rs ++ rest) ∧
      ∀ k, chunks.length ≤ k → k*c < (rs ++ rest).length →
        CommitSucceeds R packed c faults T (rs ++ rest) k := by
  induction rest generalizing chunks tail rs with
  | nil =>
    rw [List.append_nil]
    obtain ⟨hwritten,hrest⟩ := flushChunk_ok h hr
    exact ⟨⟨chunks,tail,h,hwritten⟩,hrest⟩
  | cons n rest ih =>
    rw [← List.singleton_append,← List.append_assoc]
    rw [writeLoop_cons,Writer.receive_after] at hr
    dsimp only at hr
    split_ifs at hr with hassert hfull
    · cases hr
    · -- the node closes its chunk
      have hfull' : c ≤ tail.length+1 := by simpa [Writer.after] using hfull
      have hclose := h.close n hfull'
      rw [afterCommit] at hr
      rcases Writer.commitChunk_cases R packed T faults chunks (tail ++ [n]) with
        ⟨hcalls,hok⟩ | ⟨e,-,herr⟩
      · rw [hok] at hr
        obtain ⟨hwritten,hT,hlater⟩ := ih hclose hr
        refine ⟨hwritten,hT,fun k hk hlt => ?_⟩
        rcases Nat.eq_or_lt_of_le hk with rfl | hk
        · have hlast : (chunks.length+1)*c ≤ (rs ++ [n]).length := by
            rw [hclose.length_eq,List.length_append,List.length_singleton]
            exact Nat.le_add_right _ _
          rw [CommitSucceeds,callsOfCommit_append hlast,callsOfCommit_close h]
          exact hcalls
        · refine hlater k ?_ hlt
          rw [List.length_append,List.length_singleton]
          exact hk
      · rw [herr] at hr
        cases hr
    · refine ih (h.push n ?_) hr
      simpa [Writer.after] using hfull

end Run
end TrieRebuild
