import TrieRebuild.Digest.TableScan

/-! What the digests tell apart. Tables hold no node twice, so their digest decides their rows; a
stream may repeat nodes, and repetitions cancel in pairs. -/
namespace TrieRebuild
open Foundation
variable {K S : Type}

namespace TableRows

/-- The account keys stored in some rows. -/
def accountKeys (R : TableRows K S) : Set K := {k | ∃ b, (k,b) ∈ R.accounts}

/-- The storage subkeys stored in some rows. -/
def subkeys (R : TableRows K S) : Set S := {s | ∃ a b, ((a,s),b) ∈ R.storages}

end TableRows

/-- The stored keys of two tables decode apart. -/
structure DecodesApart (A : TrieTableAdapter K S) (R R' : TableRows K S) : Prop where
  account : Set.InjOn A.accountKeyToNibbles (R.accountKeys ∪ R'.accountKeys)
  storage : Set.InjOn A.subkeyToNibbles (R.subkeys ∪ R'.subkeys)

theorem DecodesApart.symm {A : TrieTableAdapter K S} {R R' : TableRows K S}
    (h : DecodesApart A R R') : DecodesApart A R' R := by
  refine ⟨?_,?_⟩
  · rw [Set.union_comm]
    exact h.account
  · rw [Set.union_comm]
    exact h.storage

theorem DecodesApart.refl_of {A : TrieTableAdapter K S} {R R' : TableRows K S}
    (h : DecodesApart A R R') : DecodesApart A R R := by
  refine ⟨?_,?_⟩
  · rw [Set.union_self]
    exact h.account.mono Set.subset_union_left
  · rw [Set.union_self]
    exact h.storage.mono Set.subset_union_left

/-- Then different rows are read as different nodes. -/
theorem DecodesApart.rowNode_inj {A : TrieTableAdapter K S} {R R' : TableRows K S}
    (h : DecodesApart A R R') {r r' : RowKey K S × BranchNodeCompact} (hr : r ∈ R.all)
    (hr' : r' ∈ R'.all) (he : A.rowNode r = A.rowNode r') : r = r' := by
  obtain ⟨k,b⟩ := r
  obtain ⟨k',b'⟩ := r'
  cases k with
  | account k =>
    cases k' with
    | account k' =>
      simp only [TrieTableAdapter.rowNode,TrieTableAdapter.nodeKey,Node.mk.injEq,true_and] at he
      obtain ⟨hp,rfl⟩ := he
      have hk : k ∈ R.accountKeys ∪ R'.accountKeys := .inl ⟨b,TableRows.account_mem_all.mp hr⟩
      have hk' : k' ∈ R.accountKeys ∪ R'.accountKeys := .inr ⟨b,TableRows.account_mem_all.mp hr'⟩
      rw [h.account hk hk' hp]
    | storage a' s' => simp [TrieTableAdapter.rowNode,TrieTableAdapter.nodeKey] at he
  | storage a s =>
    cases k' with
    | account k' => simp [TrieTableAdapter.rowNode,TrieTableAdapter.nodeKey] at he
    | storage a' s' =>
      simp only [TrieTableAdapter.rowNode,TrieTableAdapter.nodeKey,Node.mk.injEq,
        Option.some.injEq] at he
      obtain ⟨rfl,hp,rfl⟩ := he
      have hs : s ∈ R.subkeys ∪ R'.subkeys := .inl ⟨a,b,TableRows.storage_mem_all.mp hr⟩
      have hs' : s' ∈ R.subkeys ∪ R'.subkeys := .inr ⟨a,b,TableRows.storage_mem_all.mp hr'⟩
      rw [h.storage hs hs' hp]

/-- Rows whose keys decode apart are read as nodes without repetition. -/
theorem DecodesApart.nodup_nodes {A : TrieTableAdapter K S} {R R' : TableRows K S}
    (h : DecodesApart A R R') : (R.nodes A).Nodup := by
  apply Multiset.Nodup.map_on _ R.nodup_all
  exact fun r hr r' hr' he => h.refl_of.rowNode_inj hr hr' he

/-- Tables read as the same nodes hold the same rows. -/
theorem DecodesApart.eq_of_nodes_eq {A : TrieTableAdapter K S} {R R' : TableRows K S}
    (h : DecodesApart A R R') (he : R.nodes A = R'.nodes A) : R = R' := by
  apply TableRows.ext_all
  exact eq_of_map_eq R.nodup_all R'.nodup_all
    (fun _ hr _ hr' => h.rowNode_inj hr hr') he

/-- However the scans of `digest_tables` interleave, they fold each row exactly once. -/
def FoldsRowsOnce [DecidableEq K] [DecidableEq S] (P : NibblePacking) (A : TrieTableAdapter K S)
    (R : TableRows K S) : Prop :=
  ∀ (hashOne : UInt64 → List UInt8 → UInt64) (C : TableCursors R) (σ : ScanState S),
    Relation.ReflTransGen (ScanStep hashOne P A)
      (scanStart C (walkAccounts hashOne P A C.walk).1) σ →
    (∀ nibble, (σ.scans nibble).rest = []) →
      σ.digest = NodeDigest.pushAll hashOne P {}
        (C.walk.map (accountNode A) ++ σ.folded.map (storageNode A)) ∧
      (∀ r, (C.walk : Multiset _).count r = if r ∈ R.accounts then 1 else 0) ∧
      ∀ r, (σ.folded : Multiset _).count r = if r ∈ R.storages then 1 else 0

theorem foldsRowsOnce [DecidableEq K] [DecidableEq S] (P : NibblePacking)
    (A : TrieTableAdapter K S) (R : TableRows K S) : FoldsRowsOnce P A R := by
  intro hashOne C σ hrun hdone
  refine ⟨?_,fun r => ?_,fun r => ?_⟩
  · rw [(ScanInv.of_run hrun).digest,walkAccounts_eq,NodeDigest.pushAll_append]
  · rw [C.walk_eq,Multiset.count_eq_of_nodup R.accounts.nodup]
    rfl
  · rw [folded_eq hrun hdone,Multiset.count_eq_of_nodup R.storages.nodup]
    rfl

/-- Two tables that `digest_tables` gives the same digest under every choice of the hash functions
hold the same rows: nodes have their own bytes, and each row is folded once. -/
theorem tables_eq_of_digests_eq [DecidableEq K] [DecidableEq S] (P : NibblePacking)
    (A : TrieTableAdapter K S) (R R' : TableRows K S) (hapart : DecodesApart A R R')
    (h : ∀ hashOne, ∃ r r', DigestTables hashOne P A R r ∧ DigestTables hashOne P A R' r' ∧
      r.digest = r'.digest) :
    R = R' ∧ Function.Injective (hashInput P) ∧ FoldsRowsOnce P A R ∧ FoldsRowsOnce P A R' := by
  refine ⟨?_,hashInput_injective P,foldsRowsOnce P A R,foldsRowsOnce P A R'⟩
  have hns : R.nodes A = (R.nodes A).toList := (Multiset.coe_toList _).symm
  have hms : R'.nodes A = (R'.nodes A).toList := (Multiset.coe_toList _).symm
  have hstream : ∀ hashOne, NodeDigest.ofStream hashOne P (R.nodes A).toList =
      NodeDigest.ofStream hashOne P (R'.nodes A).toList := by
    intro hashOne
    obtain ⟨r,r',hr,hr',he⟩ := h hashOne
    rwa [digestTables_eq hr hns,digestTables_eq hr' hms] at he
  have hparity := ((NodeDigest.ofStream_eq_iff P _ _).mp hstream).2
  apply hapart.eq_of_nodes_eq
  apply eq_of_parity hapart.nodup_nodes hapart.symm.nodup_nodes
  intro n
  rw [hns,hms,Multiset.coe_count,Multiset.coe_count]
  exact hparity n

namespace ReferenceReth

theorem pathAdapter_decodesApart (R R' : TableRows Nibbles Nibbles) :
    DecodesApart pathAdapter R R' where
  account _ _ _ _ h := h
  storage _ _ _ _ h := h

end ReferenceReth

open ReferenceReth in
theorem tables_eq_of_digests_eq_sample :
    sampleRows 1 2 3 = sampleRows 1 2 3 ∧ Function.Injective (hashInput .standard) ∧
      FoldsRowsOnce .standard pathAdapter (sampleRows 1 2 3) ∧
      FoldsRowsOnce .standard pathAdapter (sampleRows 1 2 3) := by
  apply tables_eq_of_digests_eq .standard pathAdapter (sampleRows 1 2 3) (sampleRows 1 2 3)
    (pathAdapter_decodesApart _ _)
  intro hashOne
  obtain ⟨r,hr⟩ := exists_digestTables hashOne .standard pathAdapter (sampleRows 1 2 3)
  exact ⟨r,r,hr,hr,rfl⟩

/-- When the digest does separate two multisets of pushed nodes: unless they are different, of the
same size modulo 2^64, and every node has multiplicities of the same parity in both. -/
theorem digest_separates_iff (P : NibblePacking) (ns ms : List Node) :
    ((∀ hashOne, NodeDigest.ofStream hashOne P ns = NodeDigest.ofStream hashOne P ms) →
        (ns : Multiset Node) = ms) ↔
      (ns : Multiset Node) = ms ∨ ns.length % 2^64 ≠ ms.length % 2^64 ∨
        ∃ n, ns.count n % 2 ≠ ms.count n % 2 := by
  rw [NodeDigest.ofStream_eq_iff,imp_iff_or_not,not_and_or,not_forall]

open ReferenceReth in
/-- Pushing one node twice is not told from pushing another one twice. -/
theorem digest_cancels_pairs :
    (∀ hashOne, NodeDigest.ofStream hashOne .standard [sampleNode none 1,sampleNode none 1] =
      NodeDigest.ofStream hashOne .standard [sampleNode none 2,sampleNode none 2]) ∧
    [sampleNode none 1,sampleNode none 1].length = [sampleNode none 2,sampleNode none 2].length ∧
    ([sampleNode none 1,sampleNode none 1] : Multiset Node) ≠
      [sampleNode none 2,sampleNode none 2] := by
  refine ⟨?_,rfl,by decide⟩
  apply (NodeDigest.ofStream_eq_iff _ _ _).mpr
  refine ⟨rfl,fun n => ?_⟩
  simp only [List.count_cons,List.count_nil]
  split <;> split <;> rfl

end TrieRebuild
