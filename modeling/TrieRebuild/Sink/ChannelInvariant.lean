import TrieRebuild.Sink.Channel

/-! The writer thread refines the sequential loop: in every interleaving it holds the nodes
received so far cut into chunks, and ends as `write_chunks` ends on what it received. -/
namespace TrieRebuild
open Foundation
namespace MdbxWriteSink
variable {ι ε K S : Type} [DecidableEq ι] [DecidableEq K] [DecidableEq S]

section Invariant
variable (R : Reth K S) (packed : Bool) (c : ℕ) (debugAssertions : Bool)
variable (faults : ℕ → ℕ → Option ε) (T : TrieTables K S)

/-- The writer against the accepted nodes, split into received ones and the rest. -/
inductive WriterInv (closed : Prop) : List Node → List Node → WriterPhase ε K S → Prop
  | receiving {rs rest chunks tail} (h : Chunked c chunks tail rs)
      (sim : ∀ more, writeChunks R packed c debugAssertions faults T (rs ++ more) =
        writeLoop R packed c debugAssertions faults (Writer.after R packed T chunks tail) more) :
      WriterInv closed rs rest (.receiving (Writer.after R packed T chunks tail))
  | received {rs n rest chunks tail} (h : Chunked c chunks tail rs)
      (sim : ∀ more, writeChunks R packed c debugAssertions faults T (rs ++ more) =
        writeLoop R packed c debugAssertions faults (Writer.after R packed T chunks tail) more) :
      WriterInv closed (rs ++ [n]) rest (.received (Writer.after R packed T chunks tail) n)
  | committing {rs n rest chunks tail} (h : Chunked c chunks tail rs) (hfull : c ≤ tail.length+1)
      (sim : ∀ more, writeChunks R packed c debugAssertions faults T ((rs ++ [n]) ++ more) =
        afterCommit R packed c debugAssertions faults
          (Writer.after R packed T chunks (tail ++ [n])) more) :
      WriterInv closed (rs ++ [n]) rest (.committing (Writer.after R packed T chunks (tail ++ [n])))
  | flushing {rs chunks tail} (h : Chunked c chunks tail rs) (hpos : 0 < tail.length)
      (hclosed : closed)
      (sim : writeChunks R packed c debugAssertions faults T rs =
        flushChunk R packed faults (Writer.after R packed T chunks tail)) :
      WriterInv closed rs [] (.flushing (Writer.after R packed T chunks tail))
  | returned {rs rest outcome T'}
      (sim : writeChunks R packed c debugAssertions faults T rs = (outcome,T'))
      (hok : ∀ written, outcome = .ok written → closed ∧ rest = [])
      (herr : ∀ e, outcome = .err e → ∃ k, FailedAt R packed c faults T rs e T' k) :
      WriterInv closed rs rest (.returned outcome T')
  | ended {rs rest outcome T'}
      (sim : writeChunks R packed c debugAssertions faults T rs = (outcome,T'))
      (hok : ∀ written, outcome = .ok written → closed ∧ rest = [])
      (herr : ∀ e, outcome = .err e → ∃ k, FailedAt R packed c faults T rs e T' k) :
      WriterInv closed rs rest (.ended outcome T')

/-- The sink against the nodes its channel took. -/
structure Inv (σ : MdbxWriteSink ι ε K S) (rs rest : List Node) : Prop where
  accepted : σ.accepted = rs ++ rest
  channel : σ.writer.receiverAlive = true → σ.channel = rest
  drained : σ.writer.receiverAlive = false → σ.channel = []
  bounded : σ.channel.length ≤ channelCapacity
  closed : σ.senderOpen = false → ∀ i n, σ.workers i ≠ .sending n
  writer : WriterInv R packed c debugAssertions faults T (σ.senderOpen = false) rs rest σ.writer

end Invariant

section Moves
variable (R : Reth K S) (packed : Bool) (c : ℕ) (debugAssertions : Bool)
variable (faults : ℕ → ℕ → Option ε)

/-- What a step of the system can do to the writer. -/
inductive WriterMove : WriterPhase ε K S → WriterPhase ε K S → Prop
  | stays (p : WriterPhase ε K S) : WriterMove p p
  | receive (w : Writer K S) (n : Node) : WriterMove (.receiving w) (.received w n)
  | insert (w : Writer K S) (n : Node) :
      WriterMove (.received w n) (takeNode c debugAssertions w n)
  | commit (w : Writer K S) : WriterMove (.committing w) (commitFull R packed faults w)
  | hangUp (w : Writer K S) : WriterMove (.receiving w) (leaveLoop w)
  | flush (w : Writer K S) : WriterMove (.flushing w) (commitLast R packed faults w)
  | exit (outcome : Outcome ε) (T : TrieTables K S) :
      WriterMove (.returned outcome T) (.ended outcome T)

variable {R packed c debugAssertions faults}

theorem Step.writerMove {σ σ' : MdbxWriteSink ι ε K S}
    (hs : Step R packed c debugAssertions faults σ σ') :
    WriterMove R packed c debugAssertions faults σ.writer σ'.writer := by
  cases hs with
  | receive w n rest hp hc => rw [hp]; exact .receive w n
  | insert w n hp => rw [hp]; exact .insert w n
  | commit w hp => rw [hp]; exact .commit w
  | hangUp w hp hc ho => rw [hp]; exact .hangUp w
  | flush w hp => rw [hp]; exact .flush w
  | exit outcome T hp => rw [hp]; exact .exit outcome T
  | _ => exact .stays _

end Moves

section Steps
variable {R : Reth K S} {packed : Bool} {c : ℕ} {debugAssertions : Bool}
variable {faults : ℕ → ℕ → Option ε} {T : TrieTables K S}

omit [DecidableEq ι] in
/-- While the channel is open the writer does not depend on what is still to come. -/
theorem WriterInv.rest {closed closed' : Prop} {rs rest rest' : List Node} {p : WriterPhase ε K S}
    (h : WriterInv R packed c debugAssertions faults T closed rs rest p)
    (hc : closed → closed' ∧ rest' = rest) :
    WriterInv R packed c debugAssertions faults T closed' rs rest' p := by
  cases h with
  | receiving h sim => exact .receiving h sim
  | received h sim => exact .received h sim
  | committing h hfull sim => exact .committing h hfull sim
  | flushing h hpos hclosed sim =>
    obtain ⟨hclosed',rfl⟩ := hc hclosed
    exact .flushing h hpos hclosed' sim
  | returned sim hok herr =>
    refine .returned sim (fun written ho => ?_) herr
    obtain ⟨hclosed,hrest⟩ := hok written ho
    exact ⟨(hc hclosed).1,(hc hclosed).2.trans hrest⟩
  | ended sim hok herr =>
    refine .ended sim (fun written ho => ?_) herr
    obtain ⟨hclosed,hrest⟩ := hok written ho
    exact ⟨(hc hclosed).1,(hc hclosed).2.trans hrest⟩

/-- Taking a node into the chunk. -/
theorem WriterInv.takeNode {closed : Prop} {rs rest : List Node} {w : Writer K S} {n : Node}
    (h : WriterInv R packed c debugAssertions faults T closed rs rest (.received w n)) :
    WriterInv R packed c debugAssertions faults T closed rs rest
      (MdbxWriteSink.takeNode c debugAssertions w n) := by
  cases h with
  | @received rs n rest chunks tail h sim =>
    have hstep : ∀ more, writeChunks R packed c debugAssertions faults T ((rs ++ [n]) ++ more) =
        writeLoop R packed c debugAssertions faults (Writer.after R packed T chunks tail)
          (n::more) := by
      intro more
      rw [List.append_assoc,List.singleton_append,sim]
    unfold MdbxWriteSink.takeNode
    rw [Writer.receive_after]
    dsimp only
    by_cases hprev : debugAssertions && (latest (tail.map Node.binding) n.key).isSome
    · rw [if_pos hprev]
      refine .returned ?_ (by simp) (by simp)
      have hs := hstep []
      rw [List.append_nil] at hs
      rw [hs,writeLoop,Writer.receive_after]
      simp only [hprev,if_true]
    · rw [if_neg hprev]
      have hpass : debugAssertions = true → n.key ∉ tail.map Node.key := by
        intro hd hm
        exact hprev (by rw [hd,Bool.true_and]; exact (latest_isSome_iff tail n).mpr hm)
      by_cases hfull : c ≤ tail.length+1
      · rw [if_pos (by simpa [Writer.after] using hfull)]
        refine .committing h hfull fun more => ?_
        rw [hstep,writeLoop_close chunks tail n more hpass hfull]
      · rw [if_neg (by simpa [Writer.after] using hfull)]
        refine .receiving (h.push n (by omega)) fun more => ?_
        rw [hstep,writeLoop_push chunks tail n more hpass (by omega)]

/-- The commit inside the loop. -/
theorem WriterInv.commitFull {closed : Prop} {rs rest : List Node} {w : Writer K S}
    (h : WriterInv R packed c debugAssertions faults T closed rs rest (.committing w)) :
    WriterInv R packed c debugAssertions faults T closed rs rest
      (MdbxWriteSink.commitFull R packed faults w) := by
  cases h with
  | @committing rs n rest chunks tail h hfull sim =>
    unfold MdbxWriteSink.commitFull
    rcases Writer.commitChunk_cases R packed T faults chunks (tail ++ [n]) with
      ⟨-,hcommit⟩ | ⟨e,hcall,hcommit⟩
    · rw [hcommit]
      refine .receiving (h.close n hfull) fun more => ?_
      rw [sim,afterCommit,hcommit]
    · rw [hcommit]
      refine .returned ?_ (by simp) (fun e' ho => ?_)
      · have hs := sim []
        rw [List.append_nil] at hs
        rw [hs,afterCommit,hcommit]
      · cases ho
        exact ⟨_,failedAt_close h hfull hcall⟩

/-- Leaving the loop, with the channel closed and drained. -/
theorem WriterInv.leaveLoop {closed : Prop} (hclosed : closed) {rs : List Node} {w : Writer K S}
    (h : WriterInv R packed c debugAssertions faults T closed rs [] (.receiving w)) :
    WriterInv R packed c debugAssertions faults T closed rs []
      (MdbxWriteSink.leaveLoop w : WriterPhase ε K S) := by
  cases h with
  | @receiving rs rest chunks tail h sim =>
    have hs := sim []
    rw [List.append_nil,writeLoop] at hs
    unfold MdbxWriteSink.leaveLoop
    by_cases hpos : 0 < tail.length
    · rw [if_pos (show (Writer.after R packed T chunks tail).pending > 0 from hpos)]
      exact .flushing h hpos hclosed hs
    · have hnot : ¬ (Writer.after R packed T chunks tail).pending > 0 := hpos
      rw [if_neg hnot]
      refine .returned ?_ (fun _ _ => ⟨hclosed,rfl⟩) (by simp)
      rw [hs,flushChunk,if_neg hnot]

/-- The commit after the loop. -/
theorem WriterInv.commitLast {closed : Prop} {rs rest : List Node} {w : Writer K S}
    (h : WriterInv R packed c debugAssertions faults T closed rs rest (.flushing w)) :
    WriterInv R packed c debugAssertions faults T closed rs rest
      (MdbxWriteSink.commitLast R packed faults w) := by
  cases h with
  | @flushing rs chunks tail h hpos hclosed sim =>
    rw [flushChunk,if_pos (show (Writer.after R packed T chunks tail).pending > 0 from hpos)] at sim
    unfold MdbxWriteSink.commitLast
    rcases Writer.commitChunk_cases R packed T faults chunks tail with
      ⟨-,hcommit⟩ | ⟨e,hcall,hcommit⟩
    · rw [hcommit] at sim ⊢
      exact .returned sim (fun _ _ => ⟨hclosed,rfl⟩) (by simp)
    · rw [hcommit] at sim ⊢
      refine .returned sim (by simp) (fun e' ho => ?_)
      cases ho
      exact ⟨_,failedAt_flush h hpos hcall⟩

omit [DecidableEq K] [DecidableEq S] in
/-- The phases the writer moves between while it still owns the receiver. -/
theorem receiverAlive_takeNode (w : Writer K S) (n : Node) :
    (MdbxWriteSink.takeNode c debugAssertions w n : WriterPhase ε K S).receiverAlive = true := by
  unfold MdbxWriteSink.takeNode
  dsimp only
  split_ifs <;> rfl

theorem receiverAlive_commitFull (w : Writer K S) :
    (MdbxWriteSink.commitFull R packed faults w).receiverAlive = true := by
  unfold MdbxWriteSink.commitFull
  split <;> rfl

omit [DecidableEq K] [DecidableEq S] in
theorem receiverAlive_leaveLoop (w : Writer K S) :
    (MdbxWriteSink.leaveLoop w : WriterPhase ε K S).receiverAlive = true := by
  unfold MdbxWriteSink.leaveLoop
  split_ifs <;> rfl

theorem receiverAlive_commitLast (w : Writer K S) :
    (MdbxWriteSink.commitLast R packed faults w).receiverAlive = true := by
  unfold MdbxWriteSink.commitLast
  split <;> rfl

omit [DecidableEq ι] in
/-- A step of the writer that neither takes from the channel nor ends the thread. -/
theorem Inv.writerStep {σ : MdbxWriteSink ι ε K S} {rs rest : List Node}
    (h : Inv R packed c debugAssertions faults T σ rs rest) {p : WriterPhase ε K S}
    (ha : σ.writer.receiverAlive = true) (ha' : p.receiverAlive = true)
    (hp : WriterInv R packed c debugAssertions faults T (σ.senderOpen = false) rs rest p) :
    Inv R packed c debugAssertions faults T { σ with writer := p } rs rest where
  accepted := h.accepted
  channel _ := h.channel ha
  drained hd := by rw [ha'] at hd; cases hd
  bounded := h.bounded
  closed := h.closed
  writer := hp

theorem Inv.step {σ σ' : MdbxWriteSink ι ε K S} {rs rest : List Node}
    (h : Inv R packed c debugAssertions faults T σ rs rest)
    (hs : Step R packed c debugAssertions faults σ σ') :
    ∃ rs' rest', Inv R packed c debugAssertions faults T σ' rs' rest' := by
  cases hs with
  | call i n hw ho =>
    refine ⟨rs,rest,h.accepted,h.channel,h.drained,h.bounded,?_,h.writer⟩
    intro hclosed
    rw [show σ.senderOpen = true from ho] at hclosed
    cases hclosed
  | send i n hw ha hroom =>
    have hopen : σ.senderOpen ≠ false := fun ho => h.closed ho i n hw
    refine ⟨rs,rest ++ [n],?_,fun _ => ?_,fun hd => ?_,?_,fun ho => absurd ho hopen,?_⟩
    · rw [← List.append_assoc,← h.accepted]
    · rw [← h.channel ha]
    · rw [ha] at hd
      cases hd
    · rw [List.length_append,List.length_singleton]
      omega
    · exact h.writer.rest fun ho => absurd ho hopen
  | sendFails i n hw ha =>
    refine ⟨rs,rest,h.accepted,h.channel,h.drained,h.bounded,?_,h.writer⟩
    intro ho j m
    have hj := h.closed ho j m
    by_cases hij : j = i
    · subst hij; simp
    · simpa [hij] using hj
  | receive w n q hp hc =>
    have halive : σ.writer.receiverAlive = true := by rw [hp]; rfl
    have hrest := h.channel halive
    rw [hc] at hrest
    have hw := h.writer
    rw [hp] at hw
    refine ⟨rs ++ [n],q,?_,fun _ => rfl,(fun hd => nomatch hd),?_,h.closed,?_⟩
    · rw [List.append_assoc,List.singleton_append,hrest,h.accepted]
    · have := h.bounded
      rw [hc,List.length_cons] at this
      exact Nat.le_of_succ_le this
    · cases hw with
      | receiving hch sim => exact .received hch sim
  | insert w n hp =>
    have hw := h.writer
    rw [hp] at hw
    exact ⟨rs,rest,h.writerStep (by rw [hp]; rfl) (receiverAlive_takeNode w n) hw.takeNode⟩
  | commit w hp =>
    have hw := h.writer
    rw [hp] at hw
    exact ⟨rs,rest,h.writerStep (by rw [hp]; rfl) (receiverAlive_commitFull w) hw.commitFull⟩
  | hangUp w hp hc ho =>
    have hrest := h.channel (by rw [hp]; rfl)
    rw [hc] at hrest
    subst hrest
    have hw := h.writer
    rw [hp] at hw
    exact ⟨rs,[],h.writerStep (by rw [hp]; rfl) (receiverAlive_leaveLoop w) (hw.leaveLoop ho)⟩
  | flush w hp =>
    have hw := h.writer
    rw [hp] at hw
    exact ⟨rs,rest,h.writerStep (by rw [hp]; rfl) (receiverAlive_commitLast w) hw.commitLast⟩
  | exit outcome T' hp =>
    have hw := h.writer
    rw [hp] at hw
    refine ⟨rs,rest,h.accepted,(fun ha => nomatch ha),fun _ => rfl,Nat.zero_le _,h.closed,?_⟩
    cases hw with
    | returned sim hok herr => exact .ended sim hok herr
  | finish hf hw =>
    refine ⟨rs,rest,h.accepted,h.channel,h.drained,h.bounded,fun _ => hw,?_⟩
    exact h.writer.rest fun _ => ⟨rfl,rfl⟩
  | join outcome T' hf hp =>
    exact ⟨rs,rest,h.accepted,h.channel,h.drained,h.bounded,h.closed,h.writer⟩

/-- In every reachable state the writer stands where the sequential loop stands on what it
received. -/
theorem inv_of_reaches (hc : 0 < c) {σ : MdbxWriteSink ι ε K S}
    (h : Reaches R packed c debugAssertions faults (start T) σ) :
    ∃ rs rest, Inv R packed c debugAssertions faults T σ rs rest := by
  induction h with
  | refl =>
    refine ⟨[],[],rfl,fun _ => rfl,(fun hd => nomatch hd),Nat.zero_le _,(fun ho => nomatch ho),?_⟩
    exact WriterInv.receiving (Chunked.nil hc) fun _ => rfl
  | tail _ hs ih =>
    obtain ⟨rs,rest,hi⟩ := ih
    exact hi.step hs

/-- A thread that has ended stays ended. -/
theorem ended_stable {σ σ' : MdbxWriteSink ι ε K S} {outcome : Outcome ε} {T' : TrieTables K S}
    (hs : Step R packed c debugAssertions faults σ σ') (he : σ.writer = .ended outcome T') :
    σ'.writer = .ended outcome T' := by
  have hm := hs.writerMove
  generalize σ'.writer = p' at hm ⊢
  rw [he] at hm
  cases hm
  rfl

/-- What `finish` reports is how the writer ended. -/
theorem finish_of_reaches {σ : MdbxWriteSink ι ε K S}
    (h : Reaches R packed c debugAssertions faults (start T) σ) :
    σ.finish = .notCalled ∨ σ.finish = .joining ∨
      ∃ outcome T', σ.writer = .ended outcome T' ∧ σ.finish = outcome.joined := by
  induction h with
  | refl => exact .inl rfl
  | @tail τ σ hr hs ih =>
    have hend := fun outcome T' (he : τ.writer = .ended outcome T') => ended_stable hs he
    cases hs with
    | finish hf hw => exact .inr (.inl rfl)
    | join outcome T' hf hp => exact .inr (.inr ⟨outcome,T',hp,rfl⟩)
    | _ =>
      rcases ih with hf | hf | ⟨outcome,T',he,hf⟩
      · exact .inl hf
      · exact .inr (.inl hf)
      · exact .inr (.inr ⟨outcome,T',hend outcome T' he,hf⟩)

/-- A `finish` that has come back reports how the writer ended. -/
theorem ended_of_finish {σ : MdbxWriteSink ι ε K S}
    (h : Reaches R packed c debugAssertions faults (start T) σ) (hcalled : σ.finish ≠ .notCalled)
    (hjoined : σ.finish ≠ .joining) :
    ∃ outcome T', σ.writer = .ended outcome T' ∧ σ.finish = outcome.joined := by
  rcases finish_of_reaches h with he | he | he
  · exact absurd he hcalled
  · exact absurd he hjoined
  · exact he

/-- An `Ok` of `finish` is the writer's. -/
theorem ended_of_finish_ok {σ : MdbxWriteSink ι ε K S} {written : Written}
    (h : Reaches R packed c debugAssertions faults (start T) σ)
    (hf : σ.finish = .returned (.ok written)) : ∃ T', σ.writer = .ended (.ok written) T' := by
  obtain ⟨outcome,T',hp,he⟩ := ended_of_finish h (by simp [hf]) (by simp [hf])
  rw [hf] at he
  cases outcome with
  | ok w => cases he; exact ⟨T',hp⟩
  | err e => cases he
  | panicked => cases he

/-- Once `finish` is called the channel is closed. -/
theorem closed_of_reaches {σ : MdbxWriteSink ι ε K S}
    (h : Reaches R packed c debugAssertions faults (start T) σ) (hf : σ.finish ≠ .notCalled) :
    σ.senderOpen = false := by
  induction h with
  | refl => exact absurd rfl hf
  | tail hr hs ih =>
    cases hs with
    | finish hf hw => rfl
    | join outcome T' hf' hp => exact ih (by rw [hf']; simp)
    | _ => exact ih hf

end Steps
end MdbxWriteSink
end TrieRebuild
