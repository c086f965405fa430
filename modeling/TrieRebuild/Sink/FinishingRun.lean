import TrieRebuild.Sink.ChannelInvariant

/-! Runs of the sink that pass one node at a time from a worker into the chunk: every stream of
distinct nodes has one as long as its commits succeed, and without faults it finishes and
succeeds. -/
namespace TrieRebuild
open Foundation
namespace MdbxWriteSink
variable {ι ε K S : Type} [DecidableEq ι] [DecidableEq K] [DecidableEq S]
variable {R : Reth K S} {packed : Bool} {c : ℕ} {T : TrieTables K S} (debugAssertions : Bool)
variable {faults : ℕ → ℕ → Option ε} {σ : MdbxWriteSink ι ε K S} {ns : List Node}

/-- The schedule on which the database never fails. -/
abbrev noFaults : ℕ → ℕ → Option ε := fun _ => Tx.noFault

/-- All calls have returned, all accepted nodes have been received, and the writer stands at
`p`. -/
structure Quiet (σ : MdbxWriteSink ι ε K S) (ns : List Node) (p : WriterPhase ε K S) : Prop where
  running : ∀ i, σ.workers i = .running
  channel : σ.channel = []
  senderOpen : σ.senderOpen = true
  finish : σ.finish = .notCalled
  called : σ.called = ns
  accepted : σ.accepted = ns
  writer : σ.writer = p

variable (R packed c faults) in
/-- One node passed all the way from a worker into the chunk. -/
theorem Quiet.pass {w : Writer K S} (h : Quiet σ ns (.receiving w)) (i : ι) (n : Node) :
    ∃ σ', Reaches R packed c debugAssertions faults σ σ' ∧
      Quiet σ' (ns ++ [n]) (takeNode c debugAssertions w n) := by
  let σ₁ : MdbxWriteSink ι ε K S := { σ with
    workers := Function.update σ.workers i (.sending n)
    called := σ.called ++ [n] }
  let σ₂ : MdbxWriteSink ι ε K S := { σ₁ with
    workers := Function.update σ₁.workers i .running
    channel := σ₁.channel ++ [n]
    accepted := σ₁.accepted ++ [n] }
  let σ₃ : MdbxWriteSink ι ε K S := { σ₂ with writer := .received w n, channel := [] }
  let σ₄ : MdbxWriteSink ι ε K S := { σ₃ with writer := takeNode c debugAssertions w n }
  have h₁ : Step R packed c debugAssertions faults σ σ₁ := .call σ i n (h.running i) h.senderOpen
  have h₂ : Step R packed c debugAssertions faults σ₁ σ₂ :=
    .send σ₁ i n (Function.update_self ..)
      (by change σ.writer.receiverAlive = true; rw [h.writer]; rfl)
      (by change σ.channel.length < channelCapacity; rw [h.channel]; decide)
  have h₃ : Step R packed c debugAssertions faults σ₂ σ₃ :=
    .receive σ₂ w n [] h.writer (by change σ.channel ++ [n] = [n]; rw [h.channel]; rfl)
  have h₄ : Step R packed c debugAssertions faults σ₃ σ₄ := .insert σ₃ w n rfl
  refine ⟨σ₄,.tail (.tail (.tail (.single h₁) h₂) h₃) h₄,?_,rfl,h.senderOpen,h.finish,?_,?_,rfl⟩
  · intro j
    change Function.update (Function.update σ.workers i _) i _ j = _
    rw [Function.update_idem,Function.update_apply]
    split_ifs
    · rfl
    · exact h.running j
  · change σ.called ++ [n] = _
    rw [h.called]
  · change σ.accepted ++ [n] = _
    rw [h.accepted]

variable (R packed c faults) in
/-- The commit of a full chunk, as it ends. -/
theorem Quiet.commit {w : Writer K S} (h : Quiet σ ns (.committing w)) :
    ∃ σ', Step R packed c debugAssertions faults σ σ' ∧
      Quiet σ' ns (commitFull R packed faults w) :=
  ⟨_,.commit σ w h.writer,h.running,h.channel,h.senderOpen,h.finish,h.called,h.accepted,rfl⟩

/-- A node whose key is new in the chunk either fills it or leaves it open. -/
theorem takeNode_after {chunks : List (List Node)} {tail : List Node} {n : Node}
    (hn : n.key ∉ tail.map Node.key) :
    (takeNode c debugAssertions (Writer.after R packed T chunks tail) n : WriterPhase ε K S) =
      if c ≤ tail.length+1 then .committing (Writer.after R packed T chunks (tail ++ [n]))
      else .receiving (Writer.after R packed T chunks (tail ++ [n])) := by
  have hprev : (debugAssertions && (latest (tail.map Node.binding) n.key).isSome) = false :=
    prev_passes tail n fun _ => hn
  unfold takeNode
  rw [Writer.receive_after]
  dsimp only
  rw [hprev,if_neg Bool.false_ne_true]
  simp only [Writer.after,List.length_append,List.length_singleton,ge_iff_le]

/-- A worker can pass any stream of distinct nodes as long as the commits succeed. -/
theorem exists_quiet (hc : 0 < c) (i : ι) {ns : List Node} (hn : (ns.map Node.key).Nodup)
    (hok : ∀ k < ns.length/c, ∀ j, faults k j = none) :
    ∃ (σ : MdbxWriteSink ι ε K S) (chunks : List (List Node)) (tail : List Node),
      Reaches R packed c debugAssertions faults (start T) σ ∧ Chunked c chunks tail ns ∧
      Quiet σ ns (.receiving (Writer.after R packed T chunks tail)) := by
  induction ns using List.reverseRecOn with
  | nil =>
    exact ⟨start T,[],[],.refl,Chunked.nil hc,fun _ => rfl,rfl,rfl,rfl,rfl,rfl,rfl⟩
  | append_singleton ns n ih =>
    have hmono : ns.length/c ≤ (ns ++ [n]).length/c := by
      apply Nat.div_le_div_right
      simp
    rw [List.map_append] at hn
    obtain ⟨σ,chunks,tail,hr,hch,hq⟩ := ih hn.of_append_left fun k hk => hok k (by omega)
    have hnew : n.key ∉ tail.map Node.key := by
      intro hm
      refine List.disjoint_of_nodup_append hn ?_ (List.mem_singleton_self _)
      rw [← hch.flatten,List.map_append]
      exact List.mem_append_right _ hm
    obtain ⟨σ',hr',hq'⟩ := hq.pass R packed c debugAssertions faults i n
    rw [takeNode_after debugAssertions hnew] at hq'
    by_cases hfull : c ≤ tail.length+1
    · rw [if_pos hfull] at hq'
      have hclose := hch.close n hfull
      have hlen := hclose.length_chunks
      rw [List.length_append,List.length_singleton] at hlen
      obtain ⟨σ'',hs,hq''⟩ := hq'.commit R packed c debugAssertions faults
      have hcommit := Writer.commitChunk_ok R packed T chunks (tail ++ [n])
        fun j _ => hok chunks.length (by omega) j
      rw [commitFull,hcommit] at hq''
      exact ⟨σ'',_,_,(hr.trans hr').tail hs,hclose,hq''⟩
    · rw [if_neg hfull] at hq'
      exact ⟨σ',_,_,hr.trans hr',hch.push n (by omega),hq'⟩

/-- From a quiet sink, `finish` gets to its end. -/
theorem Quiet.finishes {chunks : List (List Node)} {tail : List Node}
    (h : Quiet σ ns (.receiving (Writer.after R packed T chunks tail))) :
    ∃ σ', Reaches R packed c debugAssertions noFaults σ σ' ∧ σ'.called = ns ∧
      ∃ written, σ'.finish = .returned (.ok written) := by
  let σ₁ : MdbxWriteSink ι ε K S := { σ with senderOpen := false, finish := .joining }
  have h₁ : Step R packed c debugAssertions noFaults σ σ₁ :=
    .finish σ h.finish fun i n => by rw [h.running i]; exact Worker.noConfusion
  let w := Writer.after R packed T chunks tail
  let σ₂ : MdbxWriteSink ι ε K S := { σ₁ with writer := leaveLoop w }
  have h₂ : Step R packed c debugAssertions noFaults σ₁ σ₂ := .hangUp σ₁ w h.writer h.channel rfl
  have h₃ : ∃ σ₃ written T', Reaches R packed c debugAssertions noFaults σ₂ σ₃ ∧
      σ₃.called = ns ∧ σ₃.finish = .joining ∧ σ₃.writer = .returned (.ok written) T' := by
    by_cases hpos : w.pending > 0
    · have hw₂ : σ₂.writer = .flushing w := by
        change leaveLoop w = _
        rw [leaveLoop,if_pos hpos]
      let w' := Writer.after R packed T (chunks ++ [tail]) []
      refine ⟨_,w'.written,w'.tables,.single (.flush σ₂ w hw₂),h.called,rfl,?_⟩
      change commitLast R packed noFaults w = _
      unfold commitLast
      rw [Writer.commitChunk_ok R packed T chunks tail (fun _ _ => rfl)]
    · refine ⟨σ₂,w.written,w.tables,.refl,h.called,rfl,?_⟩
      change leaveLoop w = _
      rw [leaveLoop,if_neg hpos]
  obtain ⟨σ₃,written,T',hreach,hcalled,hfinish,hw₃⟩ := h₃
  let σ₄ : MdbxWriteSink ι ε K S := { σ₃ with writer := .ended (.ok written) T', channel := [] }
  have h₄ : Step R packed c debugAssertions noFaults σ₃ σ₄ := .exit σ₃ _ _ hw₃
  let σ₅ : MdbxWriteSink ι ε K S := { σ₄ with finish := .returned (.ok written) }
  have h₅ : Step R packed c debugAssertions noFaults σ₄ σ₅ :=
    .join σ₄ (.ok written) T' hfinish rfl
  have hend : Reaches R packed c debugAssertions noFaults σ σ₅ :=
    .tail (.tail ((Relation.ReflTransGen.tail (.single h₁) h₂).trans hreach) h₄) h₅
  exact ⟨σ₅,hend,hcalled,written,rfl⟩

/-- A single worker can send any stream of distinct nodes and finish. -/
theorem exists_finishing_run (hc : 0 < c) (i : ι) {ns : List Node}
    (hn : (ns.map Node.key).Nodup) :
    ∃ σ : MdbxWriteSink ι ε K S, Reaches R packed c debugAssertions noFaults (start T) σ ∧
      σ.called = ns ∧ ∃ written, σ.finish = .returned (.ok written) := by
  obtain ⟨σ,chunks,tail,hr,-,hq⟩ : ∃ (σ : MdbxWriteSink ι ε K S) (chunks : List (List Node))
      (tail : List Node), Reaches R packed c debugAssertions noFaults (start T) σ ∧
      Chunked c chunks tail ns ∧ Quiet σ ns (.receiving (Writer.after R packed T chunks tail)) :=
    exists_quiet debugAssertions hc i hn fun _ _ _ => rfl
  obtain ⟨σ',hr',hcalled,hfin⟩ := hq.finishes (c := c) debugAssertions
  exact ⟨σ',hr.trans hr',hcalled,hfin⟩

end MdbxWriteSink
end TrieRebuild
