import TrieRebuild.Foundation.Parts
import TrieRebuild.Sink.Conservation

/-! What a sink cut off at any moment leaves in the tables: the nodes its channel took first, whole
chunks of them, and all but a bounded number. -/
namespace TrieRebuild
open Foundation

/-- Whether a worker holds a node: the one in its send, or the one whose send unwound it. -/
def Worker.inSend : Worker → ℕ
  | running => 0
  | sending _ => 1
  | panicked => 1

namespace MdbxWriteSink
variable {ι ε K S : Type} [DecidableEq ι] [DecidableEq K] [DecidableEq S]

/-- The tables hold the first `m` accepted nodes. `received` of them have reached the writer,
`lost` went with the receiver, the others are in the channel. -/
structure Persisted (R : Reth K S) (packed : Bool) (c : ℕ) (T : TrieTables K S)
    (σ : MdbxWriteSink ι ε K S) (m received lost : ℕ) : Prop where
  tables : σ.tables = T.overlaid (R.adapter packed) (σ.accepted.take m)
  committed : m ≤ received
  open_le : received ≤ m+c
  accepted : received+σ.channel.length+lost = σ.accepted.length
  bounded : σ.channel.length+lost ≤ channelCapacity
  alive : σ.writer.receiverAlive = true → lost = 0
  whole : c ∣ m ∨ σ.senderOpen = false ∧ m = σ.accepted.length

section Steps
variable {R : Reth K S} {packed : Bool} {c : ℕ} {debugAssertions : Bool}
variable {faults : ℕ → ℕ → Option ε} {T : TrieTables K S}

omit [DecidableEq ι] in
/-- A step that touches neither tables nor channel. -/
theorem Persisted.frame {σ σ' : MdbxWriteSink ι ε K S} {m received lost : ℕ}
    (h : Persisted R packed c T σ m received lost) (htables : σ'.tables = σ.tables)
    (haccepted : σ'.accepted = σ.accepted) (hchannel : σ'.channel = σ.channel)
    (halive : σ'.writer.receiverAlive = true → σ.writer.receiverAlive = true)
    (hopen : σ.senderOpen = false → σ'.senderOpen = false) :
    Persisted R packed c T σ' m received lost where
  tables := by rw [htables,haccepted,h.tables]
  committed := h.committed
  open_le := h.open_le
  accepted := by rw [hchannel,haccepted,h.accepted]
  bounded := by
    rw [hchannel]
    exact h.bounded
  alive ha := h.alive (halive ha)
  whole := by
    rw [haccepted]
    exact h.whole.imp_right (And.imp_left hopen)

omit [DecidableEq ι] in
/-- What a working writer has committed, received and left in the channel. -/
theorem Inv.persisted {σ : MdbxWriteSink ι ε K S} {rs rest fresh : List Node}
    {chunks : List (List Node)} (h : Inv R packed c debugAssertions faults T σ rs rest)
    (ha : σ.writer.receiverAlive = true)
    (hT : σ.tables = T.overlaid (R.adapter packed) chunks.flatten)
    (hrs : chunks.flatten ++ fresh = rs) (hfull : ∀ chunk ∈ chunks, chunk.length = c)
    (hle : fresh.length ≤ c) :
    Persisted R packed c T σ (chunks.length*c) rs.length 0 := by
  have hflat : chunks.flatten.length = chunks.length*c := by
    have hl : ∀ n ∈ chunks.map List.length, n = c := by simpa using hfull
    rw [List.length_flatten,List.eq_replicate_of_mem hl]
    simp
  have hlen : rs.length = chunks.length*c+fresh.length := by
    rw [← hrs,List.length_append,hflat]
  have htake : σ.accepted.take (chunks.length*c) = chunks.flatten := by
    rw [h.accepted,← hrs,List.append_assoc,← hflat,List.take_left]
  exact {
    tables := by rw [htake,hT]
    committed := by omega
    open_le := by omega
    accepted := by rw [h.accepted,h.channel ha,List.length_append,Nat.add_zero]
    bounded := h.bounded
    alive := fun _ => rfl
    whole := .inl (Dvd.intro_left _ rfl) }

omit [DecidableEq K] [DecidableEq S] in
theorem tables_takeNode (w : Writer K S) (n : Node) :
    (takeNode c debugAssertions w n : WriterPhase ε K S).tables = w.tables := by
  unfold takeNode
  dsimp only
  split_ifs <;> rfl

omit [DecidableEq K] [DecidableEq S] in
theorem tables_leaveLoop (w : Writer K S) :
    (leaveLoop w : WriterPhase ε K S).tables = w.tables := by
  unfold leaveLoop
  split_ifs <;> rfl

omit [DecidableEq ι] in
/-- The send of a node: the channel takes it behind what is persisted. -/
theorem Persisted.send {σ : MdbxWriteSink ι ε K S} {m received lost : ℕ}
    (h : Persisted R packed c T σ m received lost) (ha : σ.writer.receiverAlive = true)
    (ho : σ.senderOpen ≠ false) (hroom : σ.channel.length < channelCapacity) (n : Node)
    (workers : ι → Worker) :
    Persisted R packed c T { σ with
      workers
      channel := σ.channel ++ [n]
      accepted := σ.accepted ++ [n] } m received lost := by
  have hlost := h.alive ha
  have hacc := h.accepted
  have hcom := h.committed
  refine ⟨?_,hcom,h.open_le,?_,?_,h.alive,?_⟩
  · dsimp only
    rw [List.take_append_of_le_length (by omega)]
    exact h.tables
  · simp only [List.length_append,List.length_singleton]
    omega
  · simp only [List.length_append,List.length_singleton]
    omega
  · exact .inl (h.whole.resolve_right fun hclosed => ho hclosed.1)

omit [DecidableEq ι] in
/-- The commit of a full chunk: it is in the tables, or the tables are as before. -/
theorem Persisted.commit {σ : MdbxWriteSink ι ε K S} {rs rest : List Node} {m received lost : ℕ}
    (h : Persisted R packed c T σ m received lost) {w : Writer K S}
    (hi : Inv R packed c debugAssertions faults T σ rs rest) (hp : σ.writer = .committing w) :
    ∃ m received lost,
      Persisted R packed c T { σ with writer := commitFull R packed faults w } m received lost := by
  have hw := hi.writer
  have halive : σ.writer.receiverAlive = true := by rw [hp]; rfl
  have hi' := hi.writerStep halive (receiverAlive_commitFull w) (by
    rw [hp] at hw
    exact hw.commitFull)
  rw [hp] at hw
  cases hw with
  | @committing rs n rest chunks tail hch hfull sim =>
    rcases Writer.commitChunk_cases R packed T faults chunks (tail ++ [n]) with
      ⟨-,hok⟩ | ⟨e,-,herr⟩
    · have hphase : commitFull R packed faults (Writer.after R packed T chunks (tail ++ [n])) =
          .receiving (Writer.after R packed T (chunks ++ [tail ++ [n]]) []) := by
        rw [commitFull,hok]
      have hclose := hch.close n hfull
      rw [hphase] at hi' ⊢
      exact ⟨_,_,_,hi'.persisted rfl rfl hclose.flatten hclose.full (Nat.zero_le _)⟩
    · refine ⟨_,_,_,h.frame ?_ rfl rfl (fun _ => halive) id⟩
      unfold MdbxWriteSink.tables
      rw [hp,commitFull,herr]
      rfl

omit [DecidableEq ι] in
/-- The commit of the last chunk: all accepted nodes are in the tables, or the tables are as
before. -/
theorem Persisted.flush {σ : MdbxWriteSink ι ε K S} {rs rest : List Node} {m received lost : ℕ}
    (h : Persisted R packed c T σ m received lost) {w : Writer K S}
    (hi : Inv R packed c debugAssertions faults T σ rs rest) (hp : σ.writer = .flushing w) :
    ∃ m received lost,
      Persisted R packed c T { σ with writer := commitLast R packed faults w } m received lost := by
  have hw := hi.writer
  have hchannel := hi.channel (by rw [hp]; rfl)
  rw [hp] at hw
  cases hw with
  | @flushing rs chunks tail hch hpos hclosed sim =>
    rcases Writer.commitChunk_cases R packed T faults chunks tail with ⟨-,hok⟩ | ⟨e,-,herr⟩
    · have hacc : σ.accepted = rs := by rw [hi.accepted,List.append_nil]
      have hlen : σ.channel.length = 0 := by rw [hchannel,List.length_nil]
      refine ⟨rs.length,rs.length,0,?_,le_rfl,Nat.le_add_right _ _,?_,?_,fun _ => rfl,
        .inr ⟨hclosed,?_⟩⟩
      · unfold MdbxWriteSink.tables
        dsimp only
        rw [commitLast,hok,hacc,List.take_length,← hch.flatten]
        simp [WriterPhase.tables,Writer.after]
      · dsimp only
        rw [hacc,hlen,Nat.add_zero]
      · exact hi.bounded
      · dsimp only
        rw [hacc]
    · refine ⟨_,_,_,h.frame ?_ rfl rfl (fun _ => by rw [hp]; rfl) id⟩
      unfold MdbxWriteSink.tables
      rw [hp,commitLast,herr]
      rfl

/-- One step of any thread. -/
theorem Persisted.step {σ σ' : MdbxWriteSink ι ε K S} {rs rest : List Node} {m received lost : ℕ}
    (h : Persisted R packed c T σ m received lost)
    (hi : Inv R packed c debugAssertions faults T σ rs rest)
    (hs : Step R packed c debugAssertions faults σ σ') :
    ∃ m received lost, Persisted R packed c T σ' m received lost := by
  obtain ⟨rs',rest',hi'⟩ := hi.step hs
  have hw' := hi'.writer
  cases hs with
  | call i n hcall ho => exact ⟨_,_,_,h.frame rfl rfl rfl id id⟩
  | send i n hsend ha hroom =>
    exact ⟨_,_,_,h.send ha (fun hclosed => hi.closed hclosed i n hsend) hroom n _⟩
  | sendFails i n hsend ha => exact ⟨_,_,_,h.frame rfl rfl rfl id id⟩
  | receive w n q hp hc =>
    cases hw' with
    | received hch sim =>
      have hlt := hch.length_lt
      exact ⟨_,_,_,hi'.persisted rfl rfl (by rw [← List.append_assoc,hch.flatten]) hch.full (by
        rw [List.length_append,List.length_singleton]
        omega)⟩
  | insert w n hp =>
    refine ⟨_,_,_,h.frame ?_ rfl rfl (fun _ => by rw [hp]; rfl) id⟩
    rw [MdbxWriteSink.tables,MdbxWriteSink.tables,hp]
    exact tables_takeNode w n
  | commit w hp => exact h.commit hi hp
  | hangUp w hp hc ho =>
    refine ⟨_,_,_,h.frame ?_ rfl rfl (fun _ => by rw [hp]; rfl) id⟩
    rw [MdbxWriteSink.tables,MdbxWriteSink.tables,hp]
    exact tables_leaveLoop w
  | flush w hp => exact h.flush hi hp
  | exit outcome T' hp =>
    have hT := h.tables
    have hacc := h.accepted
    have hle := h.bounded
    -- what was in the channel goes with the receiver
    refine ⟨m,received,lost+σ.channel.length,?_,h.committed,h.open_le,?_,?_,
      fun ha => absurd ha Bool.false_ne_true,h.whole⟩
    · rw [MdbxWriteSink.tables,hp] at hT
      exact hT
    · simp only [List.length_nil]
      omega
    · simp only [List.length_nil]
      omega
  | finish hf hnone => exact ⟨_,_,_,h.frame rfl rfl rfl id fun _ => rfl⟩
  | join outcome T' hf hp => exact ⟨_,_,_,h.frame rfl rfl rfl id id⟩

theorem persisted_of_reaches (hc : 0 < c) {σ : MdbxWriteSink ι ε K S}
    (h : Reaches R packed c debugAssertions faults (start T) σ) :
    ∃ m received lost, Persisted R packed c T σ m received lost := by
  induction h with
  | refl =>
    exact ⟨0,0,0,rfl,le_rfl,Nat.zero_le _,rfl,Nat.zero_le _,fun _ => rfl,.inl (dvd_zero c)⟩
  | tail hr hs ih =>
    obtain ⟨m,received,lost,hp⟩ := ih
    obtain ⟨rs,rest,hi⟩ := inv_of_reaches hc hr
    exact hp.step hi hs

/-- Each node handed to the sink was accepted, or one worker is in its send or unwound by it. -/
theorem length_called [Fintype ι] {σ : MdbxWriteSink ι ε K S}
    (h : Reaches R packed c debugAssertions faults (start T) σ) :
    σ.called.length ≤ σ.accepted.length+∑ i, (σ.workers i).inSend := by
  induction h with
  | refl => exact Nat.zero_le _
  | @tail τ σ _ hs ih =>
    have hsum := fun i w => sum_update_add Worker.inSend τ.workers i w
    cases hs with
    | call i n hw ho =>
      have hi := hsum i (.sending n)
      have hold : (τ.workers i).inSend = 0 := by rw [hw]; rfl
      have hnew : (Worker.sending n).inSend = 1 := rfl
      simp only [List.length_append,List.length_singleton]
      omega
    | send i n hw ha hroom =>
      have hi := hsum i .running
      have hold : (τ.workers i).inSend = 1 := by rw [hw]; rfl
      have hnew : Worker.running.inSend = 0 := rfl
      simp only [List.length_append,List.length_singleton]
      omega
    | sendFails i n hw ha =>
      have hi := hsum i .panicked
      have hold : (τ.workers i).inSend = 1 := by rw [hw]; rfl
      have hnew : Worker.panicked.inSend = 1 := rfl
      dsimp only
      omega
    | _ => exact ih

end Steps

section Cut
variable (R : Reth K S) (packed : Bool) (debugAssertions : Bool) (faults : ℕ → ℕ → Option ε)

/-- However the calls fail and whatever the workers send, at every moment the tables are overlaid
with the first nodes the channel took: whole chunks of them, or after the last flush all. What has
been handed to the sink and is not in the tables is bounded by a chunk, the channel and one node a
worker. -/
theorem persisted_prefix [Fintype ι] (chunkNodes : ℕ) (T : TrieTables K S)
    {σ : MdbxWriteSink ι ε K S}
    (h : Reaches R packed (max chunkNodes 1) debugAssertions faults (start T) σ) :
    ∃ m, σ.tables = T.overlaid (R.adapter packed) (σ.accepted.take m) ∧ m ≤ σ.accepted.length ∧
      (max chunkNodes 1 ∣ m ∨ σ.senderOpen = false ∧ m = σ.accepted.length) ∧
      σ.called.length ≤ m+max chunkNodes 1+65536+Fintype.card ι := by
  have hc : 0 < max chunkNodes 1 := lt_of_lt_of_le Nat.one_pos (le_max_right _ _)
  obtain ⟨m,received,lost,hp⟩ := persisted_of_reaches hc h
  have hcom := hp.committed
  have hopen := hp.open_le
  have hacc := hp.accepted
  have hbound := hp.bounded
  have hcap : channelCapacity = 65536 := by decide
  have hcalled := length_called h
  have hworkers : ∑ i, (σ.workers i).inSend ≤ Fintype.card ι := by
    have hle : ∀ i ∈ Finset.univ, (σ.workers i).inSend ≤ 1 := by
      intro i _
      cases σ.workers i <;> simp [Worker.inSend]
    have hsum := Finset.sum_le_card_nsmul _ _ _ hle
    rwa [Finset.card_univ,smul_eq_mul,Nat.mul_one] at hsum
  exact ⟨m,hp.tables,by omega,hp.whole,by omega⟩

/-- Four nodes in chunks of two, of which the second cannot be committed: the first chunk is in
the tables, the second is not. -/
theorem persisted_prefix_sample :
    let ns := [ReferenceReth.sampleNode none 1,ReferenceReth.sampleNode (some B256.zero) 1,
      ReferenceReth.sampleNode none 2,ReferenceReth.sampleNode (some B256.zero) 2]
    let T := ({} : TrieTables Nibbles Nibbles).store ReferenceReth.pathAdapter
      (ReferenceReth.sampleNode none 9)
    ∃ σ : MdbxWriteSink Unit Unit Nibbles Nibbles, σ.accepted = ns ∧
      σ.tables = T.overlaid ReferenceReth.pathAdapter (ns.take 2) ∧
      ∃ m, σ.tables = T.overlaid ReferenceReth.pathAdapter (ns.take m) ∧ m ≤ 4 ∧
        (2 ∣ m ∨ σ.senderOpen = false ∧ m = 4) ∧ 4 ≤ m+2+65536+1 := by
  intro ns T
  let R := ReferenceReth.reth
  let faults := fun (k : ℕ) (_ : ℕ) => if k = 1 then some () else none
  let n := ReferenceReth.sampleNode (some B256.zero) 2
  have hone : (ns.take 3).length/2 = 1 := by simp [ns]
  obtain ⟨σ₁,chunks,tail,hr₁,hch,hq₁⟩ : ∃ (σ : MdbxWriteSink Unit Unit Nibbles Nibbles)
      (chunks : List (List Node)) (tail : List Node),
      Reaches R true 2 true faults (start T) σ ∧ Chunked 2 chunks tail (ns.take 3) ∧
      Quiet σ (ns.take 3) (.receiving (Writer.after R true T chunks tail)) :=
    exists_quiet true Nat.two_pos () (by decide) fun k hk j => if_neg (by
      rw [hone] at hk
      exact Nat.ne_of_lt hk)
  have hlen : chunks.length = 1 := hch.length_chunks.trans hone
  have htail : tail.length = 1 := by
    have hlength : 3 = chunks.length*2+tail.length := hch.length_eq
    omega
  have hflat : chunks.flatten = ns.take 2 := by
    rw [← hch.flatten_eq_take [],hlen]
    rfl
  have hnew : n.key ∉ tail.map Node.key := by
    intro hm
    have hall : n.key ∈ (ns.take 3).map Node.key := by
      rw [← hch.flatten,List.map_append]
      exact List.mem_append_right _ hm
    exact absurd hall (by decide)
  obtain ⟨σ₂,hr₂,hq₂⟩ := hq₁.pass R true 2 true faults () n
  rw [takeNode_after true hnew,if_pos (by omega)] at hq₂
  obtain ⟨σ₃,hs₃,hq₃⟩ := hq₂.commit R true 2 true faults
  have hcalls := two_le_commitCalls (ε := Unit) R true (T.overlaid (R.adapter true) chunks.flatten)
    (tail ++ [n])
  have hfail : ∃ i < commitCalls (ε := Unit) R true (T.overlaid (R.adapter true) chunks.flatten)
      (tail ++ [n]), faults chunks.length i ≠ none :=
    ⟨0,lt_of_lt_of_le Nat.zero_lt_two hcalls,by simp [faults,hlen]⟩
  obtain ⟨e,-,herr⟩ := Writer.commitChunk_err R true T chunks (tail ++ [n]) hfail
  have hT : σ₃.tables = T.overlaid ReferenceReth.pathAdapter (ns.take 2) := by
    rw [tables,hq₃.writer,commitFull,herr,← hflat]
    rfl
  obtain ⟨m,hm⟩ := persisted_prefix R true true faults 2 T ((hr₁.trans hr₂).tail hs₃)
  rw [hq₃.accepted,hq₃.called] at hm
  exact ⟨σ₃,hq₃.accepted,hT,m,hm⟩

end Cut
end MdbxWriteSink
end TrieRebuild
