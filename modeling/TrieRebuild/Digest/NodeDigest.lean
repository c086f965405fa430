import TrieRebuild.Digest.HashInput
import TrieRebuild.Foundation.XorFold
import TrieRebuild.Trie.Updates

/-! `NodeDigest`: a count and two 64-bit folds over the hashes of the pushed nodes. What it tells
apart under every choice of the hash functions is exactly the size and the parity of each
multiplicity. -/
namespace TrieRebuild
open Foundation

/-- The seeds of the two foldhash passes. -/
def seeds : UInt64 × UInt64 := (0x747269652d67656e,0x6e6f64652d646967)

/-- Running digest of a node multiset. -/
structure NodeDigest where
  count : UInt64 := 0
  fold : UInt64 × UInt64 := (0,0)

/-- Snapshot of a `NodeDigest`. -/
structure Digest where
  count : UInt64
  fold : BitVec 128
  deriving DecidableEq

/-- The two folds side by side, the first one in the high half. -/
def joinFolds (hi lo : UInt64) : BitVec 128 :=
  (hi.toBitVec.setWidth 128 <<< 64) ||| lo.toBitVec.setWidth 128

theorem joinFolds_inj {hi lo hi' lo' : UInt64} (h : joinFolds hi lo = joinFolds hi' lo') :
    hi = hi' ∧ lo = lo' := by
  have hbits : ∀ i, (joinFolds hi lo).getLsbD i = (joinFolds hi' lo').getLsbD i := by
    intro i
    rw [h]
  constructor
  · apply UInt64.toBitVec_inj.mp
    apply BitVec.eq_of_getLsbD_eq
    intro i hi
    have hb := hbits (i+64)
    have hi64 : ¬ i+64 < 64 := by omega
    have hi128 : i+64 < 128 := by omega
    simpa [joinFolds,hi64,hi128,BitVec.getLsbD_of_ge] using hb
  · apply UInt64.toBitVec_inj.mp
    apply BitVec.eq_of_getLsbD_eq
    intro i hi
    have hb := hbits i
    have hi128 : i < 128 := by omega
    simpa [joinFolds,hi,hi128] using hb

theorem joinFolds_xor (hi hi' lo lo' : UInt64) :
    joinFolds (hi ^^^ hi') (lo ^^^ lo') = joinFolds hi lo ^^^ joinFolds hi' lo' := by
  apply BitVec.eq_of_getLsbD_eq
  intro i hi128
  by_cases hi64 : i < 64
  · simp [joinFolds,hi64]
  · have hlo : ∀ w : UInt64, w.toBitVec.getLsbD i = false := fun w =>
      BitVec.getLsbD_of_ge _ _ (by omega)
    simp [joinFolds,hi64,hi128,hlo]

namespace NodeDigest
variable (hashOne : UInt64 → List UInt8 → UInt64) (P : NibblePacking)

/-- Folds one node in. -/
def push (d : NodeDigest) (n : Node) : NodeDigest :=
  let buf := hashInput P n
  { count := d.count+1
    fold := (d.fold.1 ^^^ hashOne seeds.1 buf,d.fold.2 ^^^ hashOne seeds.2 buf) }

/-- The digest so far. -/
def snapshot (d : NodeDigest) : Digest := ⟨d.count,joinFolds d.fold.1 d.fold.2⟩

theorem snapshot_injective : Function.Injective snapshot := by
  intro d e h
  obtain ⟨c,f,g⟩ := d
  obtain ⟨c',f',g'⟩ := e
  simp only [snapshot,Digest.mk.injEq] at h
  obtain ⟨rfl,hfold⟩ := h
  obtain ⟨rfl,rfl⟩ := joinFolds_inj hfold
  rfl

/-- Pushing a stream. -/
def pushAll (d : NodeDigest) (ns : List Node) : NodeDigest := ns.foldl (push hashOne P) d

/-- The digest of a stream fed to a fresh `NodeDigest`. -/
def ofStream (ns : List Node) : Digest := (pushAll hashOne P {} ns).snapshot

theorem pushAll_append (d : NodeDigest) (ns ms : List Node) :
    pushAll hashOne P d (ns ++ ms) = pushAll hashOne P (pushAll hashOne P d ns) ms := by
  simp [pushAll,List.foldl_append]

/-- A stream adds its length to the count and its folds to the folds. -/
theorem pushAll_eq (d : NodeDigest) (ns : List Node) :
    pushAll hashOne P d ns =
      { count := d.count+UInt64.ofNat ns.length
        fold := (d.fold.1 ^^^ xorAll (hashOne seeds.1) (ns.map (hashInput P)),
          d.fold.2 ^^^ xorAll (hashOne seeds.2) (ns.map (hashInput P))) } := by
  induction ns generalizing d with
  | nil => simp [pushAll]
  | cons n ns ih =>
    have hcount : d.count+1+UInt64.ofNat ns.length = d.count+UInt64.ofNat (n::ns).length := by
      rw [List.length_cons,UInt64.ofNat_add,UInt64.add_assoc,UInt64.add_comm 1]
      rfl
    rw [pushAll,List.foldl_cons,← pushAll,ih]
    simp only [push,List.map_cons,xorAll_cons,UInt64.xor_assoc,hcount]

theorem ofStream_perm {ns ms : List Node} (h : ns.Perm ms) :
    ofStream hashOne P ns = ofStream hashOne P ms := by
  rw [ofStream,ofStream,pushAll_eq,pushAll_eq,h.length_eq,
    xorAll_perm (hashOne seeds.1) (h.map (hashInput P)),
    xorAll_perm (hashOne seeds.2) (h.map (hashInput P))]

/-- Equal multisets have equal digests. -/
theorem ofStream_eq_of_coe {ns ms : List Node} (h : (ns : Multiset Node) = ms) :
    ofStream hashOne P ns = ofStream hashOne P ms :=
  ofStream_perm hashOne P (Multiset.coe_eq_coe.mp h)

theorem count_ofStream (ns : List Node) :
    (ofStream hashOne P ns).count = UInt64.ofNat ns.length := by
  rw [ofStream,pushAll_eq]
  simp [snapshot]

omit hashOne in
/-- Two streams have the same digest under every choice of the two hash functions exactly when
their lengths agree modulo 2^64 and each node's multiplicities agree in parity. -/
theorem ofStream_eq_iff (ns ms : List Node) :
    (∀ hashOne, ofStream hashOne P ns = ofStream hashOne P ms) ↔
      ns.length % 2^64 = ms.length % 2^64 ∧ ∀ n, ns.count n % 2 = ms.count n % 2 := by
  have hlen : UInt64.ofNat ns.length = UInt64.ofNat ms.length ↔
      ns.length % 2^64 = ms.length % 2^64 := by
    rw [← UInt64.toNat_inj,UInt64.toNat_ofNat',UInt64.toNat_ofNat']
  have hfold := xorAll_map_eq_iff (hashInput_injective P) ns ms
  constructor
  · intro h
    constructor
    · rw [← hlen,← count_ofStream (fun _ _ => 0) P ns,h,count_ofStream]
    · -- any hash function can be the first of the two
      refine hfold.mp fun f => ?_
      have hs := snapshot_injective (h fun _ => f)
      rw [pushAll_eq,pushAll_eq] at hs
      simpa using congrArg (fun d => d.fold.1) hs
  · intro h hashOne
    rw [ofStream,ofStream,pushAll_eq,pushAll_eq,hlen.mpr h.1,hfold.mpr h.2,hfold.mpr h.2]

end NodeDigest

/-- An order in which iterating the hash maps of some updates meets their nodes. -/
structure Iteration where
  accountNodes : List (Nibbles × BranchNodeCompact)
  storageTries : List (B256 × List (Nibbles × BranchNodeCompact))

/-- The iteration meets every entry once. -/
structure Iterates (u : TrieUpdates) (it : Iteration) : Prop where
  accountNodes : (it.accountNodes : Multiset _) = FiniteMap.pairs u.accountNodes
  storageTries : ((it.storageTries.map fun t => (t.1,(t.2 : Multiset (Nibbles × BranchNodeCompact))) : List _) :
    Multiset _) =
    (FiniteMap.pairs u.storageTries).map fun t => (t.1,FiniteMap.pairs t.2.storageNodes)

namespace NodeDigest
variable (hashOne : UInt64 → List UInt8 → UInt64) (P : NibblePacking)

/-- `of_trie_updates`, meeting the maps in a given order; removed nodes are not looked at. -/
def ofTrieUpdates (it : Iteration) : Digest :=
  let digest := it.accountNodes.foldl (fun d b => push hashOne P d ⟨none,b.1,b.2⟩) {}
  (it.storageTries.foldl (fun d t =>
    t.2.foldl (fun d b => push hashOne P d ⟨some t.1,b.1,b.2⟩) d) digest).snapshot

/-- The nodes an iteration meets, in its order. -/
def iterated (it : Iteration) : List Node :=
  (it.accountNodes.map fun b => ⟨none,b.1,b.2⟩) ++
    it.storageTries.flatMap fun t => t.2.map fun b => ⟨some t.1,b.1,b.2⟩

theorem coe_iterated {u : TrieUpdates} {it : Iteration} (h : Iterates u it) :
    (iterated it : Multiset Node) = u.nodes := by
  have htries := congrArg (fun m : Multiset (B256 × Multiset (Nibbles × BranchNodeCompact)) =>
    m.bind fun t => t.2.map fun b => (⟨some t.1,b.1,b.2⟩ : Node)) h.storageTries
  rw [← Multiset.map_coe,Multiset.bind_map,Multiset.bind_map] at htries
  rw [iterated,← Multiset.coe_add,← Multiset.map_coe,h.accountNodes,TrieUpdates.nodes,← htries,
    ← Multiset.coe_bind]
  simp only [Multiset.map_coe]

theorem ofTrieUpdates_eq_iterated (it : Iteration) :
    ofTrieUpdates hashOne P it = ofStream hashOne P (iterated it) := by
  have htries : ∀ (ts : List (B256 × List (Nibbles × BranchNodeCompact))) d,
      ts.foldl (fun d t => t.2.foldl (fun d b => push hashOne P d ⟨some t.1,b.1,b.2⟩) d) d =
        pushAll hashOne P d (ts.flatMap fun t => t.2.map fun b => ⟨some t.1,b.1,b.2⟩) := by
    intro ts
    induction ts with
    | nil => exact fun d => rfl
    | cons t ts ih =>
      intro d
      rw [List.foldl_cons,ih,List.flatMap_cons,pushAll_append]
      congr 1
      rw [pushAll,List.foldl_map]
  rw [ofTrieUpdates,ofStream,iterated,pushAll_append,htries]
  congr 2
  rw [pushAll,List.foldl_map]

/-- The digest of updates is the digest of their nodes, whatever the iteration order. -/
theorem ofTrieUpdates_eq {u : TrieUpdates} {it : Iteration} (h : Iterates u it) {ns : List Node}
    (hns : u.nodes = ns) : ofTrieUpdates hashOne P it = ofStream hashOne P ns := by
  rw [ofTrieUpdates_eq_iterated]
  exact ofStream_eq_of_coe hashOne P ((coe_iterated h).trans hns)

end NodeDigest

/-- Iteration in key order. -/
def TrieUpdates.iteration (u : TrieUpdates) : Iteration where
  accountNodes := FiniteMap.listing u.accountNodes
  storageTries := (FiniteMap.listing u.storageTries).map fun t =>
    (t.1,FiniteMap.listing t.2.storageNodes)

theorem TrieUpdates.iterates (u : TrieUpdates) : Iterates u u.iteration where
  accountNodes := FiniteMap.coe_listing u.accountNodes
  storageTries := by
    rw [iteration,List.map_map,← FiniteMap.coe_listing u.storageTries,Multiset.map_coe]
    simp only [Function.comp_def,FiniteMap.coe_listing]

end TrieRebuild
