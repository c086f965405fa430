import TrieRebuild.Digest.NodeDigest
import TrieRebuild.Rebuild.Upserts
import TrieRebuild.Trie.ReferenceReth

/-! `without_empty_storage_tries`: what it drops is never stored, and for the outputs of a rebuild
it leaves a normal form that is as fine as the stored tables. -/
namespace TrieRebuild
open Foundation
variable {ε K S : Type} [DecidableEq K] [DecidableEq S]

/-- Updates of a full rebuild: no removals, no node at an empty path, and no trie that holds nodes
is flagged deleted. -/
structure RebuildOutput (u : TrieUpdates) : Prop where
  noRemovals : u.NoRemovals
  storable : ∀ n ∈ u.nodes, n.path.isEmpty = false
  notDeleted : ∀ a t, u.storageTries.lookup a = some t → t.storageNodes ≠ ∅ → t.isDeleted = false

/-- What a trie has to hold to be kept. -/
theorem lookup_withoutEmpty (u : TrieUpdates) (a : B256) :
    (withoutEmptyStorageTries u).storageTries.lookup a =
      (u.storageTries.lookup a).filter fun t =>
        decide (t.storageNodes ≠ ∅) || decide (t.removedNodes ≠ ∅) :=
  FiniteMap.lookup_retain _ _ _

/-- No node is dropped. -/
theorem get_withoutEmpty (u : TrieUpdates) : (withoutEmptyStorageTries u).get = u.get := by
  funext k
  obtain ⟨a,p⟩ := k
  cases a with
  | none => rfl
  | some a =>
    rw [TrieUpdates.get_some,TrieUpdates.get_some,lookup_withoutEmpty]
    cases u.storageTries.lookup a with
    | none => rfl
    | some t =>
      rw [Option.filter_some]
      split_ifs with ht
      · rfl
      · simp only [ne_eq,Bool.or_eq_true,decide_eq_true_eq,not_or,not_not] at ht
        simp [ht.1,Finmap.lookup_empty]

theorem nodes_withoutEmpty (u : TrieUpdates) : (withoutEmptyStorageTries u).nodes = u.nodes := by
  apply (Multiset.Nodup.ext (TrieUpdates.nodup_nodes _) (TrieUpdates.nodup_nodes _)).mpr
  intro n
  rw [TrieUpdates.mem_nodes,TrieUpdates.mem_nodes,get_withoutEmpty]

/-- The cursor reports nothing for a dropped trie. -/
theorem storageEntries_withoutEmpty (u : TrieUpdates) :
    (withoutEmptyStorageTries u).storageEntries = u.storageEntries := by
  let keep := fun b : B256 × StorageTrieUpdates =>
    decide (b.2.storageNodes ≠ ∅) || decide (b.2.removedNodes ≠ ∅)
  have hsplit := Multiset.filter_add_not (fun b => keep b = true) (FiniteMap.pairs u.storageTries)
  have hdropped : ((FiniteMap.pairs u.storageTries).filter fun b => ¬ keep b = true).map
      (fun b => b.2.entries) =
        ((FiniteMap.pairs u.storageTries).filter fun b => ¬ keep b = true).map fun _ => 0 := by
    apply Multiset.map_congr rfl
    intro b hb
    have ht := (Multiset.mem_filter.mp hb).2
    simp only [keep,ne_eq,Bool.or_eq_true,decide_eq_true_eq,not_or,not_not] at ht
    simp [StorageTrieUpdates.entries,ht.1,ht.2]
  have hkept : FiniteMap.pairs (withoutEmptyStorageTries u).storageTries =
      (FiniteMap.pairs u.storageTries).filter fun b => keep b = true :=
    FiniteMap.pairs_retain _ _
  rw [TrieUpdates.storageEntries,TrieUpdates.storageEntries,hkept,← hsplit,Multiset.map_add,
    Multiset.sum_add,hdropped,hsplit]
  simp

/-- On empty tables a dropped trie has nothing to clear. -/
theorem patch_withoutEmpty (A : TrieTableAdapter K S) (u : TrieUpdates) :
    ((withoutEmptyStorageTries u).patch A).apply (fun _ => none) =
      (u.patch A).apply fun _ => none := by
  funext k
  cases k with
  | account key => rfl
  | storage a s =>
    simp only [Patch.apply,TrieUpdates.patch,lookup_withoutEmpty]
    cases u.storageTries.lookup a with
    | none => rfl
    | some t =>
      rw [Option.filter_some]
      split_ifs with ht
      · rfl
      · simp only [ne_eq,Bool.or_eq_true,decide_eq_true_eq,not_or,not_not] at ht
        simp only [Option.bind_none,Option.bind_some,onStored,StorageTrieUpdates.patch,listedAt,ht.1,
          ht.2,Finmap.lookup_empty,Finset.notMem_empty,if_false,ite_self,Option.none_or,
          Option.getD_none]
        cases t.isDeleted <;> rfl

/-- Written to empty tables, a rebuild's output is stored node by node. -/
theorem RebuildOutput.patch_apply {u : TrieUpdates} (h : RebuildOutput u)
    (A : TrieTableAdapter K S) : (u.patch A).apply (fun _ => none) = A.rowsOf u.get := by
  rw [h.noRemovals.patch_apply A _ fun _ _ _ _ _ => rfl]
  funext k
  rw [Option.or_none]

/-- A rebuild's output binds nothing under an empty path. -/
theorem RebuildOutput.get_eq_none {u : TrieUpdates} (h : RebuildOutput u) {k : NodeKey}
    (hk : k.2.isEmpty = true) : u.get k = none := by
  by_contra hne
  obtain ⟨b,hb⟩ := Option.ne_none_iff_exists'.mp hne
  have hs := h.storable ⟨k.1,k.2,b⟩ (TrieUpdates.mem_nodes.mpr hb)
  rw [hk] at hs
  exact Bool.noConfusion hs

/-- The nodes updated under an account, none if it has no trie. -/
def TrieUpdates.storageNodesOf (u : TrieUpdates) (a : B256) : FiniteMap Nibbles BranchNodeCompact :=
  ((u.storageTries.lookup a).map StorageTrieUpdates.storageNodes).getD ∅

theorem TrieUpdates.lookup_storageNodesOf (u : TrieUpdates) (a : B256) (p : Nibbles) :
    (u.storageNodesOf a).lookup p = u.get (some a,p) := by
  rw [storageNodesOf,get_some]
  cases u.storageTries.lookup a <;> simp [Finmap.lookup_empty]

/-- The normal form of a rebuild's output keeps exactly the tries with nodes, not flagged. -/
theorem RebuildOutput.lookup_withoutEmpty_eq {u : TrieUpdates} (h : RebuildOutput u) (a : B256) :
    (withoutEmptyStorageTries u).storageTries.lookup a =
      if u.storageNodesOf a = ∅ then none
      else some { storageNodes := u.storageNodesOf a } := by
  rw [lookup_withoutEmpty,TrieUpdates.storageNodesOf]
  cases ht : u.storageTries.lookup a with
  | none => rfl
  | some t =>
    have hr := h.noRemovals.storage a t ht
    have hd := h.notDeleted a t ht
    obtain ⟨isDeleted,storageNodes,removedNodes⟩ := t
    obtain rfl : removedNodes = ∅ := hr
    by_cases hn : storageNodes = ∅
    · simp [Option.filter_some,hn]
    · obtain rfl : isDeleted = false := hd hn
      simp [Option.filter_some,hn]

/-- Normal forms of rebuild outputs are as fine as their bindings. -/
theorem RebuildOutput.withoutEmpty_eq_iff {u v : TrieUpdates} (hu : RebuildOutput u)
    (hv : RebuildOutput v) :
    withoutEmptyStorageTries u = withoutEmptyStorageTries v ↔ u.get = v.get := by
  constructor
  · intro h
    rw [← get_withoutEmpty u,h,get_withoutEmpty]
  · intro h
    have haccount : u.accountNodes = v.accountNodes :=
      Finmap.ext_lookup fun p => congrFun h (none,p)
    have hremoved : u.removedNodes = v.removedNodes :=
      hu.noRemovals.account.trans hv.noRemovals.account.symm
    have hstorage : (withoutEmptyStorageTries u).storageTries =
        (withoutEmptyStorageTries v).storageTries := by
      apply Finmap.ext_lookup
      intro a
      have hnodes : u.storageNodesOf a = v.storageNodesOf a := by
        apply Finmap.ext_lookup
        intro p
        rw [TrieUpdates.lookup_storageNodesOf,h,TrieUpdates.lookup_storageNodesOf]
      rw [hu.lookup_withoutEmpty_eq,hv.lookup_withoutEmpty_eq,hnodes]
    calc
      withoutEmptyStorageTries u = { u with
        storageTries := (withoutEmptyStorageTries u).storageTries } := rfl
      _ = { v with storageTries := (withoutEmptyStorageTries v).storageTries } := by
        rw [hstorage,haccount,hremoved]

/-- Comparing rebuild outputs without their empty storage tries is comparing what writing them
stores; and dropping these tries changes neither what is stored in empty tables, nor the number of
entries reported, nor the digest. -/
theorem withoutEmptyStorageTries_exact (R : Reth K S) (settings : Option (List UInt8)) :
    (∀ u v, RebuildOutput u → RebuildOutput v →
      (withoutEmptyStorageTries u = withoutEmptyStorageTries v ↔
        ((writeTrieUpdates R settings u : Tx ε (TrieTables K S) ℕ).run Tx.noFault {}).2 =
          ((writeTrieUpdates R settings v : Tx ε (TrieTables K S) ℕ).run Tx.noFault {}).2)) ∧
    (∀ u, (writeTrieUpdates R settings (withoutEmptyStorageTries u) :
        Tx ε (TrieTables K S) ℕ).run Tx.noFault {} =
      (writeTrieUpdates R settings u : Tx ε (TrieTables K S) ℕ).run Tx.noFault {}) ∧
    (∀ u hashOne P it it', Iterates u it → Iterates (withoutEmptyStorageTries u) it' →
      NodeDigest.ofTrieUpdates hashOne P it' = NodeDigest.ofTrieUpdates hashOne P it) ∧
    ∀ u, RebuildOutput u → ∀ a t,
      (withoutEmptyStorageTries u).storageTries.lookup a = some t ↔
        u.storageTries.lookup a = some t ∧ t.storageNodes ≠ ∅ := by
  refine ⟨fun u v hu hv => ?_,fun u => ?_,fun u hashOne P it it' h h' => ?_,fun u hu a t => ?_⟩
  · obtain ⟨c,Tu,hyu,hru⟩ := writeTrieUpdates_yields (ε := ε) R settings u {}
    obtain ⟨d,Tv,hyv,hrv⟩ := writeTrieUpdates_yields (ε := ε) R settings v {}
    rw [TrieTables.row_empty,hu.patch_apply] at hru
    rw [TrieTables.row_empty,hv.patch_apply] at hrv
    rw [hyu.run_noFault,hyv.run_noFault,hu.withoutEmpty_eq_iff hv]
    have hrows : Tu = Tv ↔ Tu.row = Tv.row := ⟨congrArg _,TrieTables.ext_row⟩
    rw [hrows,hru,hrv,TrieTableAdapter.rowsOf_eq_iff]
    constructor
    · exact fun h k _ => congrFun h k
    · intro h
      funext k
      cases hk : k.2.isEmpty with
      | true => rw [hu.get_eq_none hk,hv.get_eq_none hk]
      | false => exact h k hk
  · obtain ⟨c,Tu,hyu,hru⟩ := writeTrieUpdates_yields (ε := ε) R settings u {}
    obtain ⟨d,Tv,hyv,hrv⟩ :=
      writeTrieUpdates_yields (ε := ε) R settings (withoutEmptyStorageTries u) {}
    rw [TrieTables.row_empty,patch_withoutEmpty,← TrieTables.row_empty,← hru] at hrv
    rw [hyu.run_noFault,hyv.run_noFault,TrieTables.ext_row hrv,storageEntries_withoutEmpty]
    rfl
  · have hns : u.nodes = u.nodes.toList := (Multiset.coe_toList _).symm
    rw [NodeDigest.ofTrieUpdates_eq hashOne P h hns,
      NodeDigest.ofTrieUpdates_eq hashOne P h' ((nodes_withoutEmpty u).trans hns)]
  · rw [lookup_withoutEmpty,Option.filter_eq_some_iff]
    refine and_congr_right fun ht => ?_
    simp [hu.noRemovals.storage a t ht]

/-- What a sink collects is a rebuild's output. -/
theorem rebuildOutput_collect {ns : List Node} (h : ∀ n ∈ ns, n.path.isEmpty = false) :
    RebuildOutput (.collect ns) where
  noRemovals := (TrieUpdates.plain_collect ns).noRemovals
  storable n hn := by
    rw [TrieUpdates.mem_nodes,TrieUpdates.get_collect] at hn
    obtain ⟨m,hm,he⟩ := List.mem_map.mp (mem_of_latest hn)
    exact Node.binding_injective he ▸ h m hm
  notDeleted a t ht _ := ((TrieUpdates.plain_collect ns).storage a t ht).1

namespace ReferenceReth

/-- One account node, and a storage trie with nothing in it that is flagged deleted. -/
def flaggedUpdates (nibble : Fin 16) : TrieUpdates :=
  { TrieUpdates.collect [sampleNode none nibble] with
    storageTries := Finmap.singleton B256.zero { isDeleted := true } }

theorem flaggedUpdates_output (nibble : Fin 16) : RebuildOutput (flaggedUpdates nibble) := by
  have htrie : ∀ a t, (flaggedUpdates nibble).storageTries.lookup a = some t →
      t = { isDeleted := true } := by
    intro a t ht
    by_cases ha : a = B256.zero
    · subst ha
      rw [flaggedUpdates,Finmap.lookup_singleton_eq] at ht
      exact (Option.some.inj ht).symm
    · have hm : a ∉ (flaggedUpdates nibble).storageTries := by simpa [flaggedUpdates] using ha
      rw [Finmap.lookup_eq_none.mpr hm] at ht
      cases ht
  refine ⟨⟨rfl,fun a t ht => ?_⟩,fun n hn => ?_,fun a t ht hne => ?_⟩
  · rw [htrie a t ht]
  · obtain ⟨a,p,b⟩ := n
    rw [TrieUpdates.mem_nodes] at hn
    cases a with
    | none =>
      have hm : (⟨none,p,b⟩ : Node) ∈ (TrieUpdates.collect [sampleNode none nibble]).nodes :=
        TrieUpdates.mem_nodes.mpr hn
      have hs : ∀ n ∈ [sampleNode none nibble], n.path.isEmpty = false := by
        intro n hn
        rw [List.mem_singleton.mp hn]
        rfl
      exact (rebuildOutput_collect hs).storable _ hm
    | some a =>
      rw [Node.key,TrieUpdates.get_some] at hn
      obtain ⟨t,ht,hp⟩ := Option.bind_eq_some_iff.mp hn
      rw [htrie a t ht,Finmap.lookup_empty] at hp
      cases hp
  · rw [htrie a t ht] at hne
    exact absurd rfl hne

end ReferenceReth

open ReferenceReth in
theorem withoutEmptyStorageTries_exact_sample :
    withoutEmptyStorageTries (flaggedUpdates 1) =
        withoutEmptyStorageTries (.collect [sampleNode none 1]) ↔
      ((writeTrieUpdates reth none (flaggedUpdates 1) :
          Tx Unit (TrieTables Nibbles Nibbles) ℕ).run Tx.noFault {}).2 =
        ((writeTrieUpdates reth none (.collect [sampleNode none 1]) :
          Tx Unit (TrieTables Nibbles Nibbles) ℕ).run Tx.noFault {}).2 :=
  (withoutEmptyStorageTries_exact reth none).1 _ _ (flaggedUpdates_output 1)
    (rebuildOutput_collect (by decide))

end TrieRebuild
