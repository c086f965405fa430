import TrieRebuild.Foundation.Interleaving
import TrieRebuild.Foundation.Parts
import TrieRebuild.Digest.NodeDigest
import TrieRebuild.Trie.ReferenceReth

/-! Threads that push into one `NodeDigest`. A push is three atomic updates, and the updates of
different pushes interleave; each of the three counters meets the pushes in an order of its own,
and none of them depends on the order. -/
namespace TrieRebuild
open Foundation
namespace NodeDigest

/-- A thread between two pushes, or in one: before its first `fetch_xor`, before its second, or
before its `fetch_add`. -/
inductive Pusher
  | idle
  | foldFirst (n : Node)
  | foldSecond (n : Node)
  | counting (n : Node)

/-- The node whose first fold is still to come. -/
def Pusher.unfoldedFirst : Pusher → List Node
  | foldFirst n => [n]
  | _ => []

/-- The node whose second fold is still to come. -/
def Pusher.unfoldedSecond : Pusher → List Node
  | foldFirst n => [n]
  | foldSecond n => [n]
  | _ => []

/-- The node that is still to be counted. -/
def Pusher.uncounted : Pusher → List Node
  | foldFirst n => [n]
  | foldSecond n => [n]
  | counting n => [n]
  | idle => []

/-- The digest shared by threads, each with the nodes it has yet to push. -/
structure Shared (ι : Type) where
  digest : NodeDigest := {}
  pushers : ι → Pusher := fun _ => .idle
  todo : ι → List Node

section Model
variable {ι : Type} [DecidableEq ι] (hashOne : UInt64 → List UInt8 → UInt64) (P : NibblePacking)

/-- A fresh digest, and the pushes the threads will make. -/
def start (calls : ι → List Node) : Shared ι where
  todo := calls

/-- One step of one thread: into a push, or one of its atomic updates. -/
inductive Step : Shared ι → Shared ι → Prop
  | call (σ) (t : ι) (n : Node) (rest : List Node) (hp : σ.pushers t = .idle)
      (ht : σ.todo t = n::rest) :
      Step σ { σ with
        pushers := Function.update σ.pushers t (.foldFirst n)
        todo := Function.update σ.todo t rest }
  | fetchXorFirst (σ) (t : ι) (n : Node) (hp : σ.pushers t = .foldFirst n) :
      Step σ { σ with
        digest := { σ.digest with
          fold := (σ.digest.fold.1 ^^^ hashOne seeds.1 (hashInput P n),σ.digest.fold.2) }
        pushers := Function.update σ.pushers t (.foldSecond n) }
  | fetchXorSecond (σ) (t : ι) (n : Node) (hp : σ.pushers t = .foldSecond n) :
      Step σ { σ with
        digest := { σ.digest with
          fold := (σ.digest.fold.1,σ.digest.fold.2 ^^^ hashOne seeds.2 (hashInput P n)) }
        pushers := Function.update σ.pushers t (.counting n) }
  | fetchAdd (σ) (t : ι) (n : Node) (hp : σ.pushers t = .counting n) :
      Step σ { σ with
        digest := { σ.digest with count := σ.digest.count+1 }
        pushers := Function.update σ.pushers t .idle }

abbrev Reaches : Shared ι → Shared ι → Prop := Relation.ReflTransGen (Step hashOne P)

/-- All pushes have been made and have returned. -/
def Shared.Finished (σ : Shared ι) : Prop := ∀ t, σ.pushers t = .idle ∧ σ.todo t = []

/-- A partly applied set of pushes: the orders in which the three counters have met them so far,
and what each thread still has to do to each counter. -/
structure Applied (calls : ι → List Node) (σ : Shared ι) (first second counted : List (ι × Node)) :
    Prop where
  foldFirst : σ.digest.fold.1 =
    xorAll (hashOne seeds.1) ((first.map Prod.snd).map (hashInput P))
  foldSecond : σ.digest.fold.2 =
    xorAll (hashOne seeds.2) ((second.map Prod.snd).map (hashInput P))
  count : σ.digest.count = UInt64.ofNat counted.length
  callsFirst : ∀ t, ofThread t first ++ (σ.pushers t).unfoldedFirst ++ σ.todo t = calls t
  callsSecond : ∀ t, ofThread t second ++ (σ.pushers t).unfoldedSecond ++ σ.todo t = calls t
  callsCounted : ∀ t, ofThread t counted ++ (σ.pushers t).uncounted ++ σ.todo t = calls t

end Model

section Run
variable {ι : Type} [DecidableEq ι] {hashOne : UInt64 → List UInt8 → UInt64} {P : NibblePacking}
variable {calls : ι → List Node}

theorem Applied.start : Applied hashOne P calls (start calls) [] [] [] where
  foldFirst := rfl
  foldSecond := rfl
  count := rfl
  callsFirst _ := rfl
  callsSecond _ := rfl
  callsCounted _ := rfl

/-- Each step is one update of one counter. -/
theorem Applied.step {σ σ' : Shared ι} {first second counted : List (ι × Node)}
    (h : Applied hashOne P calls σ first second counted) (hs : Step hashOne P σ σ') :
    ∃ first' second' counted', Applied hashOne P calls σ' first' second' counted' := by
  cases hs with
  | call t n rest hp ht =>
    refine ⟨first,second,counted,h.foldFirst,h.foldSecond,h.count,?_,?_,?_⟩
    · exact pending_of_call (by rw [hp]; rfl) ht rfl h.callsFirst
    · exact pending_of_call (by rw [hp]; rfl) ht rfl h.callsSecond
    · exact pending_of_call (by rw [hp]; rfl) ht rfl h.callsCounted
  | fetchXorFirst t n hp =>
    refine ⟨first ++ [(t,n)],second,counted,?_,h.foldSecond,h.count,?_,?_,?_⟩
    · rw [List.map_append,List.map_append,xorAll_append,← h.foldFirst]
      simp [xorAll_cons]
    · exact pending_of_met (by rw [hp]; rfl) rfl h.callsFirst
    · exact pending_of_eq (by rw [hp]; rfl) h.callsSecond
    · exact pending_of_eq (by rw [hp]; rfl) h.callsCounted
  | fetchXorSecond t n hp =>
    refine ⟨first,second ++ [(t,n)],counted,h.foldFirst,?_,h.count,?_,?_,?_⟩
    · rw [List.map_append,List.map_append,xorAll_append,← h.foldSecond]
      simp [xorAll_cons]
    · exact pending_of_eq (by rw [hp]; rfl) h.callsFirst
    · exact pending_of_met (by rw [hp]; rfl) rfl h.callsSecond
    · exact pending_of_eq (by rw [hp]; rfl) h.callsCounted
  | fetchAdd t n hp =>
    refine ⟨first,second,counted ++ [(t,n)],h.foldFirst,h.foldSecond,?_,?_,?_,?_⟩
    · dsimp only
      rw [h.count,List.length_append,UInt64.ofNat_add]
      rfl
    · exact pending_of_eq (by rw [hp]; rfl) h.callsFirst
    · exact pending_of_eq (by rw [hp]; rfl) h.callsSecond
    · exact pending_of_met (by rw [hp]; rfl) rfl h.callsCounted

theorem Applied.of_reaches {σ : Shared ι} (h : Reaches hashOne P (NodeDigest.start calls) σ) :
    ∃ first second counted, Applied hashOne P calls σ first second counted := by
  induction h with
  | refl => exact ⟨[],[],[],.start⟩
  | tail _ hs ih =>
    obtain ⟨first,second,counted,ha⟩ := ih
    exact ha.step hs

/-- Once all pushes have returned, each counter has met all of them. -/
theorem Applied.finished {σ : Shared ι} {first second counted : List (ι × Node)}
    (h : Applied hashOne P calls σ first second counted) (hf : σ.Finished) :
    Interleaves calls first ∧ Interleaves calls second ∧ Interleaves calls counted := by
  refine ⟨?_,?_,?_⟩
  · exact interleaves_of_pending h.callsFirst (fun t => by rw [(hf t).1]; rfl) fun t => (hf t).2
  · exact interleaves_of_pending h.callsSecond (fun t => by rw [(hf t).1]; rfl) fun t => (hf t).2
  · exact interleaves_of_pending h.callsCounted (fun t => by rw [(hf t).1]; rfl) fun t => (hf t).2

/-- The digest of a finished run is that of its pushes made one after another in any order. -/
theorem snapshot_eq [Fintype ι] {σ : Shared ι} (h : Reaches hashOne P (NodeDigest.start calls) σ)
    (hf : σ.Finished) {ns : List Node} (hns : (ns : Multiset Node) = ∑ t, (calls t : Multiset Node)) :
    σ.digest.snapshot = ofStream hashOne P ns := by
  obtain ⟨first,second,counted,ha⟩ := Applied.of_reaches h
  obtain ⟨h₁,h₂,h₃⟩ := ha.finished hf
  have hperm : ∀ l, Interleaves calls l → (l.map Prod.snd).Perm ns := by
    intro l hl
    apply Multiset.coe_eq_coe.mp
    rw [hns,hl.coe_eq_sum]
  have hlen : counted.length = ns.length := by
    rw [← (hperm counted h₃).length_eq,List.length_map]
  rw [ofStream,pushAll_eq]
  congr 1
  obtain ⟨digest,_,_⟩ := σ
  obtain ⟨count,fold⟩ := digest
  obtain ⟨fold₁,fold₂⟩ := fold
  obtain rfl : fold₁ = _ := ha.foldFirst
  obtain rfl : fold₂ = _ := ha.foldSecond
  obtain rfl : count = _ := ha.count
  rw [hlen,xorAll_perm _ ((hperm first h₁).map _),xorAll_perm _ ((hperm second h₂).map _)]
  simp

/-- No push is in progress. -/
def Shared.Resting (σ : Shared ι) : Prop := ∀ u, σ.pushers u = .idle

/-- A thread makes its next push while no other is in one. -/
theorem Shared.Resting.pass {σ : Shared ι} (h : σ.Resting) {t : ι} {n : Node} {rest : List Node}
    (ht : σ.todo t = n::rest) :
    ∃ σ', Reaches hashOne P σ σ' ∧ σ'.Resting ∧ σ'.todo = Function.update σ.todo t rest := by
  refine ⟨_,.tail (.tail (.tail (.single (.call σ t n rest (h t) ht))
    (.fetchXorFirst _ t n (Function.update_self ..)))
    (.fetchXorSecond _ t n (Function.update_self ..)))
    (.fetchAdd _ t n (Function.update_self ..)),fun u => ?_,rfl⟩
  dsimp only
  rw [Function.update_idem,Function.update_idem,Function.update_idem,Function.update_apply]
  split_ifs
  · rfl
  · exact h u

/-- Finitely many threads can make all their pushes. -/
theorem exists_finished [Fintype ι] (calls : ι → List Node) :
    ∃ σ, Reaches hashOne P (start calls) σ ∧ σ.Finished := by
  obtain ⟨σ,hr,hidle,hdone⟩ := exists_drained
    (fun σ t n rest (h : Shared.Resting σ) ht => h.pass ht)
    (start calls) fun u => rfl
  exact ⟨σ,hr,fun t => ⟨hidle t,hdone t⟩⟩

end Run

/-- Digests add up: counts modulo 2^64, folds by exclusive or. -/
theorem ofStream_append (hashOne : UInt64 → List UInt8 → UInt64) (P : NibblePacking)
    (ns ms : List Node) :
    ofStream hashOne P (ns ++ ms) = {
      count := (ofStream hashOne P ns).count+(ofStream hashOne P ms).count
      fold := (ofStream hashOne P ns).fold ^^^ (ofStream hashOne P ms).fold } := by
  simp only [ofStream,pushAll_eq,snapshot,List.map_append,xorAll_append,List.length_append,
    UInt64.ofNat_add,UInt64.zero_add,UInt64.zero_xor,joinFolds_xor]

/-- However threads interleave the atomic updates of their pushes, the digest they leave is that
of the nodes pushed one after another in any order. It counts the pushes modulo 2^64, is additive,
and of some updates does not depend on the order in which their maps are met. -/
theorem snapshot_independent_of_order {ι : Type} [Fintype ι] [DecidableEq ι]
    (hashOne : UInt64 → List UInt8 → UInt64) (P : NibblePacking) :
    (∀ (calls : ι → List Node) (σ : Shared ι), Reaches hashOne P (start calls) σ → σ.Finished →
      ∀ ns : List Node, (ns : Multiset Node) = ∑ t, (calls t : Multiset Node) →
        σ.digest.snapshot = ofStream hashOne P ns ∧
        σ.digest.snapshot.count.toNat = ns.length % 2^64) ∧
    (∀ ns ms, ofStream hashOne P (ns ++ ms) = {
      count := (ofStream hashOne P ns).count+(ofStream hashOne P ms).count
      fold := (ofStream hashOne P ns).fold ^^^ (ofStream hashOne P ms).fold }) ∧
    (∀ (u : TrieUpdates) (it it' : Iteration), Iterates u it → Iterates u it' →
      ofTrieUpdates hashOne P it = ofTrieUpdates hashOne P it') := by
  refine ⟨fun calls σ hr hf ns hns => ?_,ofStream_append hashOne P,fun u it it' h h' => ?_⟩
  · have hs := snapshot_eq hr hf hns
    refine ⟨hs,?_⟩
    rw [hs,count_ofStream,UInt64.toNat_ofNat']
  · rw [ofTrieUpdates_eq_iterated,ofTrieUpdates_eq_iterated]
    apply ofStream_eq_of_coe
    rw [coe_iterated h,coe_iterated h']

open ReferenceReth in
theorem snapshot_independent_of_order_sample :
    ∃ σ : Shared Bool, Reaches (fun _ _ => 7) .standard (start fun t =>
        [sampleNode none 1,sampleNode (if t then none else some B256.zero) 2]) σ ∧
      σ.Finished ∧ σ.digest.snapshot.count.toNat = 4 := by
  obtain ⟨σ,hr,hf⟩ : ∃ σ : Shared Bool, Reaches (fun _ _ => 7) .standard (start fun t =>
      [sampleNode none 1,sampleNode (if t then none else some B256.zero) 2]) σ ∧ σ.Finished :=
    exists_finished _
  refine ⟨σ,hr,hf,?_⟩
  exact ((snapshot_independent_of_order (fun _ _ => 7) .standard).1 _ σ hr hf
    [sampleNode none 1,sampleNode none 2,sampleNode none 1,sampleNode (some B256.zero) 2]
    (by decide)).2

end NodeDigest
end TrieRebuild
