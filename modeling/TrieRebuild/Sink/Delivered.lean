import TrieRebuild.Foundation.Parts
import TrieRebuild.Sink.Conservation

/-! What `finish` vouches for: if it returns `Ok`, every node handed to the sink is in the tables,
whatever the database may have done in other runs and whatever the tables held before. -/
namespace TrieRebuild
open Foundation

/-- The node in a worker's send. -/
def Worker.node : Worker → Multiset Node
  | sending n => {n}
  | _ => 0

namespace MdbxWriteSink
variable {ι ε K S : Type} [DecidableEq ι] [DecidableEq K] [DecidableEq S]

section Steps
variable {R : Reth K S} {packed : Bool} {c : ℕ} {debugAssertions : Bool}
variable {faults : ℕ → ℕ → Option ε} {T : TrieTables K S}

/-- The writer has not ended, or it has ended well. -/
def Unfailed (p : WriterPhase ε K S) : Prop :=
  ∀ outcome T', p = .ended outcome T' → ∃ written, outcome = .ok written

/-- Until the writer fails, no send does: each node called is accepted or in its send. -/
structure Delivering [Fintype ι] (σ : MdbxWriteSink ι ε K S) : Prop where
  called : (σ.called : Multiset Node) = (σ.accepted : Multiset Node)+∑ i, (σ.workers i).node
  unwound : ∀ i, σ.workers i ≠ .panicked

theorem Delivering.step [Fintype ι] {σ σ' : MdbxWriteSink ι ε K S} {rs rest : List Node}
    (h : Delivering σ) (hi : Inv R packed c debugAssertions faults T σ rs rest)
    (hun : Unfailed σ.writer) (hs : Step R packed c debugAssertions faults σ σ') :
    Delivering σ' := by
  have hsum := fun i w => sum_update_add Worker.node σ.workers i w
  have hunwound : ∀ i (w : Worker), w ≠ .panicked →
      ∀ j, Function.update σ.workers i w j ≠ .panicked := by
    intro i w hw
    rw [Function.forall_update_iff σ.workers fun _ w => w ≠ Worker.panicked]
    exact ⟨hw,fun j _ => h.unwound j⟩
  cases hs with
  | call i n hw ho =>
    refine ⟨?_,hunwound i _ Worker.noConfusion⟩
    have hi := hsum i (.sending n)
    rw [hw] at hi
    have hnode : Worker.running.node = 0 := rfl
    rw [hnode,add_zero] at hi
    dsimp only
    rw [hi,← Multiset.coe_add,h.called,add_assoc]
    rfl
  | send i n hw ha hroom =>
    refine ⟨?_,hunwound i _ Worker.noConfusion⟩
    have hi := hsum i .running
    rw [hw] at hi
    have hnode : Worker.running.node = 0 := rfl
    rw [hnode,add_zero] at hi
    dsimp only
    rw [h.called,← hi,← Multiset.coe_add,add_assoc,add_comm (Multiset.ofList [n])]
    rfl
  | sendFails i n hw ha =>
    -- the receiver went with a writer that ended well, when no send was left
    cases hp : σ.writer with
    | ended outcome T' =>
      obtain ⟨written,rfl⟩ := hun outcome T' hp
      have hwriter := hi.writer
      rw [hp] at hwriter
      cases hwriter with
      | ended sim hok herr => exact absurd hw (hi.closed (hok _ rfl).1 i n)
    | _ => rw [hp] at ha; cases ha
  | _ => exact ⟨h.called,h.unwound⟩

theorem delivering_of_reaches [Fintype ι] (hc : 0 < c) {σ : MdbxWriteSink ι ε K S}
    (h : Reaches R packed c debugAssertions faults (start T) σ)
    (hun : Unfailed σ.writer) : Delivering σ := by
  induction h with
  | refl =>
    refine ⟨?_,fun _ => Worker.noConfusion⟩
    have hnone : ∀ i ∈ Finset.univ, ((start T : MdbxWriteSink ι ε K S).workers i).node = 0 :=
      fun _ _ => rfl
    rw [Finset.sum_congr rfl hnone]
    simp [start]
  | tail hr hs ih =>
    obtain ⟨rs,rest,hi⟩ := inv_of_reaches hc hr
    have hprev : Unfailed _ := fun outcome T' he => hun outcome T' (ended_stable hs he)
    exact (ih hprev).step hi hprev hs

end Steps

section Ok
variable (R : Reth K S) (packed : Bool) (debugAssertions : Bool) (faults : ℕ → ℕ → Option ε)

variable {R packed debugAssertions faults} in
/-- What lies behind an `Ok` of `finish`: nothing is left in a send, and the writer has committed
all it accepted. -/
theorem finish_ok [Fintype ι] {c : ℕ} (hc : 0 < c) {T : TrieTables K S} {σ : MdbxWriteSink ι ε K S}
    (h : Reaches R packed c debugAssertions faults (start T) σ) {written : Written}
    (hf : σ.finish = .returned (.ok written)) :
    (σ.called : Multiset Node) = σ.accepted ∧ (∀ i, σ.workers i = .running) ∧
    σ.tables = T.overlaid (R.adapter packed) σ.accepted ∧
    written.chunks = σ.called.length ⌈/⌉ c ∧
    ((σ.called.map Node.key).Nodup →
      written.nodes = (σ.called.filter Node.storable).length) := by
  obtain ⟨T',hp⟩ := ended_of_finish_ok h hf
  have hd : Delivering σ := delivering_of_reaches hc h fun outcome T'' he => by
    rw [hp] at he
    cases he
    exact ⟨written,rfl⟩
  obtain ⟨rs,rest,hi⟩ := inv_of_reaches hc h
  have hclosed := hi.closed (closed_of_reaches h (by rw [hf]; simp))
  have hrunning : ∀ i, σ.workers i = .running := by
    intro i
    cases hw : σ.workers i with
    | running => rfl
    | sending n => exact absurd hw (hclosed i n)
    | panicked => exact absurd hw (hd.unwound i)
  have hcalled : (σ.called : Multiset Node) = σ.accepted := by
    have hnone : ∀ i ∈ Finset.univ, (σ.workers i).node = 0 := by
      intro i _
      rw [hrunning i]
      rfl
    have hall := hd.called
    rwa [Finset.sum_eq_zero hnone,add_zero] at hall
  have hwriter := hi.writer
  rw [hp] at hwriter
  cases hwriter with
  | ended sim hok herr =>
    obtain ⟨-,rfl⟩ := hok _ rfl
    have hacc := hi.accepted
    rw [List.append_nil] at hacc
    subst hacc
    obtain ⟨⟨chunks,tail,hch,hwritten⟩,hT,-⟩ := writeLoop_ok (Chunked.nil hc) sim
    rw [List.nil_append] at hch hwritten hT
    have hperm := Multiset.coe_eq_coe.mp hcalled
    refine ⟨hcalled,hrunning,?_,?_,fun hn => ?_⟩
    · rw [tables,hp]
      exact hT
    · rw [hwritten,hperm.length_eq]
    · rw [hwritten,(hperm.filter _).length_eq]
      exact sum_chunkEntries hch ((hperm.map Node.key).nodup_iff.mp hn)

/-- If `finish` returns `Ok`, no send has failed, the channel took every node handed over, and the
tables are overlaid with all of them in the order it took them. The chunks are as few as the nodes
fit in, and distinct nodes are counted one by one. -/
theorem finish_ok_complete [Fintype ι] (chunkNodes : ℕ) (T : TrieTables K S)
    {σ : MdbxWriteSink ι ε K S}
    (h : Reaches R packed (max chunkNodes 1) debugAssertions faults (start T) σ)
    {written : Written} (hf : σ.finish = .returned (.ok written)) :
    (σ.called : Multiset Node) = σ.accepted ∧ (∀ i, σ.workers i = .running) ∧
    σ.tables = T.overlaid (R.adapter packed) σ.accepted ∧
    written.chunks = σ.called.length ⌈/⌉ max chunkNodes 1 ∧
    ((σ.called.map Node.key).Nodup →
      written.nodes = (σ.called.filter Node.storable).length) :=
  finish_ok (lt_of_lt_of_le Nat.one_pos (le_max_right _ _)) h hf

/-- Two nodes written over tables that hold another one, in chunks of one. -/
theorem finish_ok_complete_sample :
    let ns := [ReferenceReth.sampleNode none 1,ReferenceReth.sampleNode (some B256.zero) 1]
    let T := ({} : TrieTables Nibbles Nibbles).store ReferenceReth.pathAdapter
      (ReferenceReth.sampleNode none 9)
    ∃ (σ : MdbxWriteSink Unit Unit Nibbles Nibbles) (written : Written),
      σ.called = ns ∧ σ.finish = .returned (.ok written) ∧ written = ⟨2,2⟩ ∧
      σ.tables = T.overlaid (ReferenceReth.reth.adapter false) σ.accepted := by
  intro ns T
  have hn : (ns.map Node.key).Nodup := by decide
  obtain ⟨σ,hr,hcalled,written,hf⟩ := exists_finishing_run (R := ReferenceReth.reth)
    (c := max 1 1) (T := T) false (by decide) () hn
  obtain ⟨-,-,hT,hchunks,hnodes⟩ := finish_ok_complete ReferenceReth.reth false false
    (noFaults : ℕ → ℕ → Option Unit) 1 T hr hf
  rw [hcalled] at hchunks hnodes
  have htwo : ns.length ⌈/⌉ max 1 1 = 2 := Nat.ceilDiv_eq_add_pred_div 2 1
  refine ⟨σ,written,hcalled,hf,?_,hT⟩
  cases written with
  | mk nodes chunks => exact congrArg₂ Written.mk (hnodes hn) (hchunks.trans htwo)

end Ok
end MdbxWriteSink
end TrieRebuild
