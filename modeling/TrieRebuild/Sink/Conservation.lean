import TrieRebuild.Sink.FinishingRun
import TrieRebuild.Sink.LastWriter
import TrieRebuild.Sink.Liveness

/-! No node is lost, duplicated or left behind by `MdbxWriteSink`: in every interleaving the
accepted nodes are the committed ones, the ones the writer holds and the ones in the channel. -/
namespace TrieRebuild
open Foundation
namespace MdbxWriteSink
variable {ι ε K S : Type} [DecidableEq ι] [DecidableEq K] [DecidableEq S]

/-- The workers' side, as long as the nodes they were called with are distinct. -/
structure CallInv (workers : ι → Worker) (called accepted : List Node) : Prop where
  nodup : accepted.Nodup
  subset : ∀ n ∈ accepted, n ∈ called
  sending : ∀ i n, workers i = .sending n → n ∈ called ∧ n ∉ accepted
  unique : ∀ i j n, workers i = .sending n → workers j = .sending n → i = j
  accounted : (∀ i, workers i ≠ .panicked) → ∀ n ∈ called,
    n ∈ accepted ∨ ∃ i, workers i = .sending n

section Calls
variable {workers : ι → Worker} {called accepted : List Node}

theorem update_ne_panicked {i : ι} {w : Worker} (hw : workers i ≠ .panicked)
    (h : ∀ j, Function.update workers i w j ≠ .panicked) (j : ι) : workers j ≠ .panicked := by
  by_cases hij : j = i
  · subst hij
    exact hw
  · have hj := h j
    rwa [Function.update_of_ne hij] at hj

theorem CallInv.call (h : CallInv workers called accepted) {i : ι} {n : Node}
    (hw : workers i = .running) (hn : n ∉ called) :
    CallInv (Function.update workers i (.sending n)) (called ++ [n]) accepted where
  nodup := h.nodup
  subset m hm := List.mem_append_left _ (h.subset m hm)
  sending j m hj := by
    rw [Function.update_apply] at hj
    split_ifs at hj with hij
    · cases hj
      exact ⟨by simp,fun hm => hn (h.subset n hm)⟩
    · exact ⟨List.mem_append_left _ (h.sending j m hj).1,(h.sending j m hj).2⟩
  unique j k m hj hk := by
    rw [Function.update_apply] at hj hk
    split_ifs at hj hk with hij hik hik
    · exact hij.trans hik.symm
    · cases hj
      exact absurd (h.sending k n hk).1 hn
    · cases hk
      exact absurd (h.sending j n hj).1 hn
    · exact h.unique j k m hj hk
  accounted hp m hm := by
    have hp' := update_ne_panicked (by rw [hw]; exact Worker.noConfusion) hp
    rcases List.mem_append.mp hm with hm | hm
    · rcases h.accounted hp' m hm with ha | ⟨j,hj⟩
      · exact .inl ha
      · have hij : j ≠ i := fun he => by rw [he,hw] at hj; cases hj
        exact .inr ⟨j,(Function.update_of_ne hij _ _).trans hj⟩
    · obtain rfl := List.mem_singleton.mp hm
      exact .inr ⟨i,Function.update_self ..⟩

theorem CallInv.send (h : CallInv workers called accepted) {i : ι} {n : Node}
    (hw : workers i = .sending n) :
    CallInv (Function.update workers i .running) called (accepted ++ [n]) where
  nodup := by
    refine List.Nodup.append h.nodup (List.nodup_singleton n) ?_
    simpa using (h.sending i n hw).2
  subset m hm := by
    rcases List.mem_append.mp hm with hm | hm
    · exact h.subset m hm
    · obtain rfl := List.mem_singleton.mp hm
      exact (h.sending i m hw).1
  sending j m hj := by
    rw [Function.update_apply] at hj
    split_ifs at hj with hij
    refine ⟨(h.sending j m hj).1,fun hm => ?_⟩
    rcases List.mem_append.mp hm with hm | hm
    · exact (h.sending j m hj).2 hm
    · obtain rfl := List.mem_singleton.mp hm
      exact hij (h.unique j i m hj hw)
  unique j k m hj hk := by
    rw [Function.update_apply] at hj hk
    split_ifs at hj hk
    exact h.unique j k m hj hk
  accounted hp m hm := by
    have hp' := update_ne_panicked (by rw [hw]; exact Worker.noConfusion) hp
    rcases h.accounted hp' m hm with ha | ⟨j,hj⟩
    · exact .inl (List.mem_append_left _ ha)
    · by_cases hij : j = i
      · subst hij
        rw [hw] at hj
        cases hj
        exact .inl (by simp)
      · exact .inr ⟨j,(Function.update_of_ne hij _ _).trans hj⟩

theorem CallInv.sendFails (h : CallInv workers called accepted) (i : ι) :
    CallInv (Function.update workers i .panicked) called accepted where
  nodup := h.nodup
  subset := h.subset
  sending j m hj := by
    rw [Function.update_apply] at hj
    split_ifs at hj
    exact h.sending j m hj
  unique j k m hj hk := by
    rw [Function.update_apply] at hj hk
    split_ifs at hj hk
    exact h.unique j k m hj hk
  accounted hp := absurd (Function.update_self ..) (hp i)

variable {R : Reth K S} {packed : Bool} {c : ℕ} {debugAssertions : Bool}
variable {faults : ℕ → ℕ → Option ε}

theorem called_grows {σ σ' : MdbxWriteSink ι ε K S}
    (hs : Step R packed c debugAssertions faults σ σ') : σ.called <+: σ'.called := by
  cases hs with
  | call i n hw ho => exact List.prefix_append _ _
  | _ => exact List.prefix_rfl

theorem callInv_of_reaches {T : TrieTables K S} {σ : MdbxWriteSink ι ε K S}
    (h : Reaches R packed c debugAssertions faults (start T) σ) (hn : σ.called.Nodup) :
    CallInv σ.workers σ.called σ.accepted := by
  induction h with
  | refl => exact ⟨List.nodup_nil,by simp [start],by simp [start],by simp [start],by simp [start]⟩
  | tail hr hs ih =>
    have hi := ih (hn.sublist (called_grows hs).sublist)
    cases hs with
    | call i n hw ho =>
      exact hi.call hw fun hm => List.disjoint_of_nodup_append hn hm (List.mem_singleton_self n)
    | send i n hw ha hroom => exact hi.send hw
    | sendFails i n hw ha => exact hi.sendFails i
    | _ => exact hi

omit [DecidableEq ι] in
/-- Nodes called with distinct keys are accepted with distinct keys. -/
theorem CallInv.nodup_keys (h : CallInv workers called accepted)
    (hn : (called.map Node.key).Nodup) : (accepted.map Node.key).Nodup :=
  h.nodup.map_on fun n hm m hm' hk =>
    List.inj_on_of_nodup_map hn (h.subset n hm) (h.subset m hm') hk

end Calls

section NoFault
variable {R : Reth K S} {packed : Bool} {c : ℕ} {debugAssertions : Bool}

/-- What a writer holds after distinct storable nodes, and what it has committed. -/
theorem nodes_after (R : Reth K S) (packed : Bool) {chunks : List (List Node)} {tail rs : List Node}
    (h : chunks.flatten ++ tail = rs) (hn : (rs.map Node.key).Nodup)
    (hs : ∀ n ∈ rs, n.storable) :
    (Writer.after R packed {} chunks tail).tables.nodes (R.adapter packed) +
      (Writer.after R packed {} chunks tail).chunk.nodes = (rs : Multiset Node) := by
  subst h
  have hflat : chunks.flatten.filter Node.storable = chunks.flatten :=
    List.filter_eq_self.mpr fun n hm => hs n (List.mem_append_left _ hm)
  rw [List.map_append] at hn
  rw [Writer.after,TrieTables.nodes_overlaid_empty _ hn.of_append_left,hflat,
    TrieUpdates.nodes_collect hn.of_append_right,← Multiset.coe_add]

/-- The chunk of a writer that holds distinct nodes counts each of them. -/
theorem card_chunk_after (chunks : List (List Node)) {tail : List Node}
    (hn : (tail.map Node.key).Nodup) :
    (Writer.after R packed ({} : TrieTables K S) chunks tail).chunk.nodes.card = tail.length := by
  rw [Writer.after,TrieUpdates.nodes_collect hn,Multiset.coe_card]

/-- Without faults, a stream of distinct keys is written whole. -/
theorem writeChunks_distinct (hc : 0 < c) (T : TrieTables K S) {rs : List Node}
    (hn : (rs.map Node.key).Nodup) :
    writeChunks R packed c debugAssertions (noFaults : ℕ → ℕ → Option ε) T rs =
      (.ok ⟨(rs.filter Node.storable).length,rs.length ⌈/⌉ c⟩,T.overlaid (R.adapter packed) rs) := by
  obtain ⟨chunks,tail,h,hrun⟩ := writeChunks_ok R packed c debugAssertions
    (noFaults : ℕ → ℕ → Option ε) T hc rs
    (fun _ _ _ _ => rfl) (fun k _ => hn.sublist ((chunkAt_sublist c k rs).map _))
  rw [hrun,sum_chunkEntries h hn]

/-- What the writer has committed and what it holds are the nodes it received. -/
theorem WriterInv.conserves (hc : 0 < c) {closed : Prop} {rs rest : List Node}
    {p : WriterPhase ε K S}
    (h : WriterInv R packed c debugAssertions noFaults {} closed rs rest p)
    (hn : (rs.map Node.key).Nodup) (hs : ∀ n ∈ rs, n.storable) :
    p.tables.nodes (R.adapter packed)+p.held = (rs : Multiset Node) := by
  have hend : ∀ {outcome : Outcome ε} {T' : TrieTables K S},
      writeChunks R packed c debugAssertions noFaults {} rs = (outcome,T') →
      T'.nodes (R.adapter packed)+0 = (rs : Multiset Node) := by
    intro outcome T' sim
    rw [writeChunks_distinct hc {} hn] at sim
    cases sim
    rw [TrieTables.nodes_overlaid_empty _ hn,List.filter_eq_self.mpr hs,Multiset.add_zero]
  cases h with
  | receiving h sim => exact nodes_after R packed h.flatten hn hs
  | @received rs n rest chunks tail h sim =>
    rw [List.map_append] at hn
    have hrs := nodes_after R packed h.flatten hn.of_append_left
      (fun m hm => hs m (List.mem_append_left _ hm))
    rw [← Multiset.coe_add,← hrs,Multiset.add_assoc]
    rfl
  | committing h hfull sim =>
    exact nodes_after R packed (by rw [← List.append_assoc,h.flatten]) hn hs
  | flushing h hpos hclosed sim => exact nodes_after R packed h.flatten hn hs
  | returned sim hok herr => exact hend sim
  | ended sim hok herr => exact hend sim

/-- The writer never holds more than a chunk. -/
theorem WriterInv.card_held {closed : Prop} {rs rest : List Node} {p : WriterPhase ε K S}
    (h : WriterInv R packed c debugAssertions noFaults {} closed rs rest p)
    (hn : (rs.map Node.key).Nodup) : p.held.card ≤ c := by
  have htail : ∀ {chunks : List (List Node)} {tail : List Node}, chunks.flatten ++ tail = rs →
      (tail.map Node.key).Nodup := by
    intro chunks tail h
    rw [← h,List.map_append] at hn
    exact hn.of_append_right
  cases h with
  | receiving h sim =>
    have := h.length_lt
    rw [WriterPhase.held,card_chunk_after _ (htail h.flatten)]
    omega
  | @received rs n rest chunks tail h sim =>
    have := h.length_lt
    have ht : (tail.map Node.key).Nodup := by
      have hf := @htail chunks (tail ++ [n]) (by rw [← List.append_assoc,h.flatten])
      rw [List.map_append] at hf
      exact hf.of_append_left
    rw [WriterPhase.held,Multiset.card_add,card_chunk_after _ ht,Multiset.card_singleton]
    omega
  | committing h hfull sim =>
    have := h.length_lt
    rw [WriterPhase.held,card_chunk_after _ (htail (by rw [← List.append_assoc,h.flatten])),
      List.length_append,List.length_singleton]
    omega
  | flushing h hpos hclosed sim =>
    have := h.length_lt
    rw [WriterPhase.held,card_chunk_after _ (htail h.flatten)]
    omega
  | returned sim hok herr => exact Nat.zero_le _
  | ended sim hok herr => exact Nat.zero_le _

/-- A writer that is through without faults has succeeded, with the channel closed and drained. -/
theorem WriterInv.ended_ok (hc : 0 < c) {closed : Prop} {rs rest : List Node}
    {outcome : Outcome ε} {T' : TrieTables K S}
    (h : WriterInv R packed c debugAssertions noFaults {} closed rs rest (.ended outcome T'))
    (hn : (rs.map Node.key).Nodup) :
    outcome = .ok ⟨(rs.filter Node.storable).length,rs.length ⌈/⌉ c⟩ ∧
      T' = ({} : TrieTables K S).overlaid (R.adapter packed) rs ∧ closed ∧ rest = [] := by
  cases h with
  | ended sim hok herr =>
    rw [writeChunks_distinct hc {} hn] at sim
    cases sim
    exact ⟨rfl,rfl,hok _ rfl⟩

end NoFault

section Conserve
variable (R : Reth K S) (packed : Bool) (debugAssertions : Bool)

/-- Without faults and with distinct nodes no send fails. -/
theorem not_panicked_of_reaches {c : ℕ} (hc : 0 < c) {σ : MdbxWriteSink ι ε K S}
    (h : Reaches R packed c debugAssertions noFaults (start {}) σ)
    (hn : (σ.called.map Node.key).Nodup) (i : ι) : σ.workers i ≠ .panicked := by
  induction h with
  | refl => exact Worker.noConfusion
  | @tail τ σ hr hs ih =>
    have hsub := (called_grows hs).sublist.map Node.key
    have hi := ih (hn.sublist hsub)
    cases hs with
    | call j n hw ho =>
      by_cases hij : i = j
      · subst hij; simp
      · simpa [hij] using hi
    | send j n hw ha hroom =>
      by_cases hij : i = j
      · subst hij; simp
      · simpa [hij] using hi
    | sendFails j n hw ha =>
      -- a dead receiver means a writer that ended well, so nobody was sending
      obtain ⟨rs,rest,hinv⟩ := inv_of_reaches hc hr
      have hcall := callInv_of_reaches hr (List.Nodup.of_map _ hn)
      have hacc := hcall.nodup_keys hn
      rw [hinv.accepted,List.map_append] at hacc
      have hw' := hinv.writer
      cases hp : τ.writer with
      | ended outcome T' =>
        rw [hp] at hw'
        exact absurd hw (hinv.closed (hw'.ended_ok hc hacc.of_append_left).2.2.1 j n)
      | _ => rw [hp] at ha; exact nomatch ha
    | _ => exact hi

/-- What the writer has received in a reachable state: distinct storable nodes. -/
theorem received_of_reaches {c : ℕ} (hc : 0 < c) {σ : MdbxWriteSink ι ε K S}
    (h : Reaches R packed c debugAssertions noFaults (start {}) σ)
    (hn : (σ.called.map Node.key).Nodup) (hs : ∀ n ∈ σ.called, n.path.isEmpty = false) :
    ∃ rs rest, Inv R packed c debugAssertions noFaults {} σ rs rest ∧ (rs.map Node.key).Nodup ∧
      ∀ n ∈ rs, n.storable := by
  obtain ⟨rs,rest,hinv⟩ := inv_of_reaches hc h
  have hcall := callInv_of_reaches h (List.Nodup.of_map _ hn)
  have hacc := hcall.nodup_keys hn
  rw [hinv.accepted,List.map_append] at hacc
  refine ⟨rs,rest,hinv,hacc.of_append_left,fun n hm => ?_⟩
  have hm' := hcall.subset n (by rw [hinv.accepted]; exact List.mem_append_left _ hm)
  rw [Node.storable,hs n hm']
  rfl

/-- A `finish` that returns has every node that was sent in the tables, and counts it. -/
theorem finished_of_reaches {c : ℕ} (hc : 0 < c) {σ : MdbxWriteSink ι ε K S}
    (h : Reaches R packed c debugAssertions noFaults (start {}) σ)
    (hn : (σ.called.map Node.key).Nodup) (hs : ∀ n ∈ σ.called, n.path.isEmpty = false)
    {result : Except ε Written} (hf : σ.finish = .returned result) :
    result = .ok ⟨σ.called.length,σ.called.length ⌈/⌉ c⟩ ∧
      σ.tables.nodes (R.adapter packed) = (σ.called : Multiset Node) ∧
      σ.channel = [] ∧ σ.writer.held = 0 := by
  obtain ⟨rs,rest,hinv,hrs,hsub⟩ := received_of_reaches R packed debugAssertions hc h hn hs
  have hcall := callInv_of_reaches h (List.Nodup.of_map _ hn)
  have hcons := hinv.writer.conserves hc hrs hsub
  obtain ⟨outcome,T',hp,he⟩ := ended_of_finish h (by simp [hf]) (by simp [hf])
  have hw := hinv.writer
  rw [hp] at hw hcons
  obtain ⟨ho,hT,_,hr⟩ := hw.ended_ok hc hrs
  rw [hf,ho] at he
  cases he
  have hall : (σ.called : Multiset Node) = rs := by
    have hacc : σ.accepted = rs := by rw [hinv.accepted,hr,List.append_nil]
    rw [← hacc,Multiset.coe_eq_coe]
    apply (List.perm_ext_iff_of_nodup (List.Nodup.of_map _ hn) hcall.nodup).mpr
    intro n
    refine ⟨fun hm => ?_,hcall.subset n⟩
    rcases hcall.accounted (not_panicked_of_reaches R packed debugAssertions hc h hn) n hm with
      ha | ⟨i,hi⟩
    · exact ha
    · exact absurd hi (hinv.closed (closed_of_reaches h (by simp [hf])) i n)
  have hlen : σ.called.length = rs.length := by
    simpa using congrArg Multiset.card hall
  refine ⟨?_,?_,hinv.drained (by rw [hp]; rfl),?_⟩
  · rw [hlen,List.filter_eq_self.mpr hsub]
  · rw [tables,hp,hall,← hcons]
    exact (Multiset.add_zero _).symm
  · rw [hp]
    rfl

/-- Without faults the writer does not panic on distinct nodes, and `finish` does not either. -/
theorem finish_ne_panicked {c : ℕ} (hc : 0 < c) {σ : MdbxWriteSink ι ε K S}
    (h : Reaches R packed c debugAssertions noFaults (start {}) σ)
    (hn : (σ.called.map Node.key).Nodup) (hs : ∀ n ∈ σ.called, n.path.isEmpty = false) :
    σ.finish ≠ .panicked := by
  obtain ⟨rs,rest,hinv,hrs,hsub⟩ := received_of_reaches R packed debugAssertions hc h hn hs
  intro hf
  obtain ⟨outcome,T',hp,he⟩ := ended_of_finish h (by simp [hf]) (by simp [hf])
  have hw := hinv.writer
  rw [hp] at hw
  rw [hf,(hw.ended_ok hc hrs).1] at he
  cases he

/-- If no more calls are made, `finish` can come back with a result. -/
theorem exists_result [Fintype ι] {c : ℕ} (hc : 0 < c) {σ : MdbxWriteSink ι ε K S}
    (h : Reaches R packed c debugAssertions noFaults (start {}) σ)
    (hn : (σ.called.map Node.key).Nodup) (hs : ∀ n ∈ σ.called, n.path.isEmpty = false) :
    ∃ σ', Reaches R packed c debugAssertions noFaults σ σ' ∧ σ'.called = σ.called ∧
      ∃ result, σ'.finish = .returned result := by
  obtain ⟨k,σ',hk,hback,-⟩ :=
    (drains (ι := ι) R packed c debugAssertions noFaults {}).exists_done h
  obtain ⟨hr,hcalled⟩ := reaches_of_drainSteps hk
  have hpanic := finish_ne_panicked R packed debugAssertions hc (h.trans hr)
    (by rwa [hcalled]) (by rwa [hcalled])
  refine ⟨σ',hr,hcalled,?_⟩
  cases hf : σ'.finish with
  | returned result => exact ⟨result,rfl⟩
  | panicked => exact absurd hf hpanic
  | notCalled => rw [hf] at hback; cases hback
  | joining => rw [hf] at hback; cases hback

/-- In every interleaving of workers sending distinct nodes, writer and `finish`, over empty
tables and without faults: the accepted nodes are the committed, held and queued ones; the writer
waits only with less than a chunk; the uncommitted nodes are bounded; `finish` returns with all
nodes sent in the tables and counted; and if no more calls are made the run can go on until it
does. -/
theorem conserves_nodes (chunkNodes : ℕ) (σ : MdbxWriteSink ι ε K S)
    (h : Reaches R packed (max chunkNodes 1) debugAssertions noFaults (start {}) σ)
    (hn : (σ.called.map Node.key).Nodup) (hs : ∀ n ∈ σ.called, n.path.isEmpty = false) :
    ((σ.accepted : Multiset Node) =
        σ.tables.nodes (R.adapter packed)+σ.writer.held+(σ.channel : Multiset Node) ∧
      σ.accepted.Nodup ∧ ∀ n ∈ σ.accepted, n ∈ σ.called) ∧
    (∀ w, σ.writer = .receiving w → w.pending = w.chunk.nodes.card ∧ w.pending < max chunkNodes 1) ∧
    σ.writer.held.card+σ.channel.length ≤ 65536+max chunkNodes 1 ∧
    σ.finish ≠ .panicked ∧
    (∀ result, σ.finish = .returned result →
      result = .ok ⟨σ.called.length,σ.called.length ⌈/⌉ max chunkNodes 1⟩ ∧
      σ.tables.nodes (R.adapter packed) = (σ.called : Multiset Node) ∧
      σ.channel = [] ∧ σ.writer.held = 0) ∧
    (Finite ι → ∃ σ',
      Reaches R packed (max chunkNodes 1) debugAssertions noFaults σ σ' ∧ σ'.called = σ.called ∧
      ∃ result, σ'.finish = .returned result) := by
  have hc : 0 < max chunkNodes 1 := lt_of_lt_of_le Nat.one_pos (le_max_right _ _)
  obtain ⟨rs,rest,hinv,hrs,hsub⟩ := received_of_reaches R packed debugAssertions hc h hn hs
  have hcall := callInv_of_reaches h (List.Nodup.of_map _ hn)
  have hcons := hinv.writer.conserves hc hrs hsub
  have hrest : σ.channel = rest := by
    cases hp : σ.writer with
    | ended outcome T' =>
      have hw := hinv.writer
      rw [hp] at hw
      rw [hinv.drained (by rw [hp]; rfl),(hw.ended_ok hc hrs).2.2.2]
    | _ => exact hinv.channel (by rw [hp]; rfl)
  refine ⟨⟨?_,hcall.nodup,hcall.subset⟩,?_,?_,finish_ne_panicked R packed debugAssertions hc h hn hs,
    ?_,?_⟩
  · rw [hinv.accepted,← Multiset.coe_add,hrest,tables,hcons]
  · intro w hp
    have hw := hinv.writer
    rw [hp] at hw
    cases hw with
    | receiving hch sim =>
      have htn := hrs
      rw [← hch.flatten,List.map_append] at htn
      replace htn := htn.of_append_right
      exact ⟨(card_chunk_after _ htn).symm,hch.length_lt⟩
  · have hheld := hinv.writer.card_held hrs
    have hbound := hinv.bounded
    have hcap : channelCapacity = 65536 := by decide
    omega
  · intro result hf
    exact finished_of_reaches R packed debugAssertions hc h hn hs hf
  · intro hfinite
    have := Fintype.ofFinite ι
    exact exists_result R packed debugAssertions hc h hn hs

/-- One worker and three nodes, one of them in a storage trie, in chunks of two: with all of them
received the writer holds one, and the run ends with it committed too. -/
theorem conserves_nodes_sample :
    let ns := [ReferenceReth.sampleNode none 1,ReferenceReth.sampleNode (some B256.zero) 1,
      ReferenceReth.sampleNode none 2]
    ∃ σ σ' : MdbxWriteSink Unit Unit Nibbles Nibbles,
      σ.channel = [] ∧ σ.writer.held.card = 1 ∧
      (ns : Multiset Node) = σ.tables.nodes (ReferenceReth.reth.adapter false)+σ.writer.held ∧
      Reaches ReferenceReth.reth false 2 false noFaults σ σ' ∧
      σ'.finish = .returned (.ok ⟨3,2⟩) ∧
      σ'.tables.nodes (ReferenceReth.reth.adapter false) = (ns : Multiset Node) := by
  intro ns
  have hn : (ns.map Node.key).Nodup := by decide
  have hs : ∀ n ∈ ns, n.path.isEmpty = false := by decide
  obtain ⟨σ,chunks,tail,hr,hch,hq⟩ : ∃ (σ : MdbxWriteSink Unit Unit Nibbles Nibbles)
      (chunks : List (List Node)) (tail : List Node),
      Reaches ReferenceReth.reth false (max 2 1) false noFaults (start {}) σ ∧
      Chunked (max 2 1) chunks tail ns ∧
      Quiet σ ns (.receiving (Writer.after ReferenceReth.reth false {} chunks tail)) :=
    exists_quiet false (by decide) () hn fun _ _ _ => rfl
  have hcalled := hq.called
  obtain ⟨⟨hacc,-,-⟩,hwait,-,-,-,hgo⟩ := conserves_nodes ReferenceReth.reth false false 2 σ hr
    (by rwa [hcalled]) (by rwa [hcalled])
  obtain ⟨σ',hr',hcalled',result,hf⟩ := hgo inferInstance
  rw [hcalled] at hcalled'
  obtain ⟨-,-,-,-,hfin,-⟩ := conserves_nodes ReferenceReth.reth false false 2 σ' (hr.trans hr')
    (by rwa [hcalled']) (by rwa [hcalled'])
  obtain ⟨rfl,hT,-,-⟩ := hfin _ hf
  rw [hcalled'] at hf hT
  have htwo : ns.length ⌈/⌉ max 2 1 = 2 := Nat.ceilDiv_eq_add_pred_div 3 2
  rw [htwo] at hf
  rw [hq.channel,Multiset.coe_nil,Multiset.add_zero,hq.accepted] at hacc
  have htail : tail.length = 1 := by
    have hlen : 3 = chunks.length*2+tail.length := hch.length_eq
    have hlt : tail.length < 2 := hch.length_lt
    omega
  have hheld : σ.writer.held.card = 1 := by
    rw [hq.writer]
    exact ((hwait _ hq.writer).1.symm.trans htail :)
  exact ⟨σ,σ',hq.channel,hheld,hacc,hr',hf,hT⟩

end Conserve
end MdbxWriteSink
end TrieRebuild
