import TrieRebuild.Rebuild.Upserts
import TrieRebuild.Trie.ReferenceReth

/-! The effect of `write_trie_updates_with` row by row: what is bound, what is gone, what is
untouched; and that it is idempotent and blind to hash map order. -/
namespace TrieRebuild
open Foundation
variable {ε K S : Type} [DecidableEq K] [DecidableEq S]

/-- The tables after a write, against the tables before it. -/
structure WriteEffect (A : TrieTableAdapter K S) (u : TrieUpdates) (T T' : TrieTables K S) : Prop where
  accountUpdated : ∀ p b, p.isEmpty = false → u.accountNodes.lookup p = some b →
    T'.row (.account (A.accountKey p)) = some b
  accountRemoved : ∀ p, p ∈ u.removedNodes → p ∉ u.accountNodes →
    T'.row (.account (A.accountKey p)) = none
  accountFrame : ∀ key,
    (∀ p, A.accountKey p = key → p ∈ u.accountNodes → p.isEmpty) →
    (∀ p, A.accountKey p = key → p ∈ u.removedNodes → p ∈ u.accountNodes) →
    T'.row (.account key) = T.row (.account key)
  storageUpdated : ∀ a t p b, u.storageTries.lookup a = some t → p.isEmpty = false →
    t.storageNodes.lookup p = some b → T'.row (.storage a (A.subkey p)) = some b
  storageRemoved : ∀ a t p, u.storageTries.lookup a = some t → p.isEmpty = false →
    p ∈ t.removedNodes → p ∉ t.storageNodes → T'.row (.storage a (A.subkey p)) = none
  storageRest : ∀ a t s, u.storageTries.lookup a = some t →
    (∀ p, A.subkey p = s → p.isEmpty = false → p ∉ t.storageNodes ∧ p ∉ t.removedNodes) →
    T'.row (.storage a s) = if t.isDeleted then none else T.row (.storage a s)
  storageFrame : ∀ a s, a ∉ u.storageTries → T'.row (.storage a s) = T.row (.storage a s)

section Effect
variable (A : TrieTableAdapter K S)

theorem listedAt_of_lookup {nodes : FiniteMap Nibbles BranchNodeCompact} {p : Nibbles}
    {b : BranchNodeCompact} (h : nodes.lookup p = some b) (removed : Finset Nibbles) :
    listedAt nodes removed p = some (some b) := by simp [listedAt,h]

theorem listedAt_of_removed {nodes : FiniteMap Nibbles BranchNodeCompact} {removed : Finset Nibbles}
    {p : Nibbles} (hr : p ∈ removed) (hu : p ∉ nodes) : listedAt nodes removed p = some none := by
  simp [listedAt,Finmap.lookup_eq_none.mpr hu,hr]

theorem listedAt_eq_none {nodes : FiniteMap Nibbles BranchNodeCompact} {removed : Finset Nibbles}
    {p : Nibbles} (hu : p ∉ nodes) (hr : p ∉ removed) : listedAt nodes removed p = none := by
  simp [listedAt,Finmap.lookup_eq_none.mpr hu,hr]

/-- Patched tables have every clause of the effect. -/
theorem writeEffect_of_row {u : TrieUpdates} {T T' : TrieTables K S}
    (h : T'.row = (u.patch A).apply T.row) : WriteEffect A u T T' where
  accountUpdated p b hp hb := by
    rw [h]
    apply Patch.apply_of_eq_some
    simp [TrieUpdates.patch,onStored,A.accountKey_decodes,TrieUpdates.accountPatch,
      listedAt_of_lookup hb,hp]
  accountRemoved p hr hu := by
    rw [h]
    apply Patch.apply_of_eq_some
    simp [TrieUpdates.patch,onStored,A.accountKey_decodes,TrieUpdates.accountPatch,
      listedAt_of_removed hr hu]
  accountFrame key hu hr := by
    rw [h]
    apply Patch.apply_of_eq_none
    simp only [TrieUpdates.patch,onStored,TrieUpdates.accountPatch]
    split_ifs with hk
    · by_cases hm : A.accountKeyToNibbles key ∈ u.accountNodes
      · obtain ⟨b,hb⟩ := Finmap.mem_iff.mp hm
        simp [listedAt_of_lookup hb,hu _ hk hm]
      · simp [listedAt_eq_none hm fun hm' => hm (hr _ hk hm')]
    · rfl
  storageUpdated a t p b ht hp hb := by
    rw [h]
    apply Patch.apply_of_eq_some
    simp [TrieUpdates.patch,ht,onStored,A.subkey_decodes,StorageTrieUpdates.patch,hp,
      listedAt_of_lookup hb]
  storageRemoved a t p ht hp hr hu := by
    rw [h]
    apply Patch.apply_of_eq_some
    simp [TrieUpdates.patch,ht,onStored,A.subkey_decodes,StorageTrieUpdates.patch,hp,
      listedAt_of_removed hr hu]
  storageRest a t s ht hs := by
    have hnone : onStored A.subkey A.subkeyToNibbles t.patch s = none := by
      simp only [onStored,StorageTrieUpdates.patch]
      split_ifs with hk hp
      · rfl
      · obtain ⟨hu,hr⟩ := hs _ hk (Bool.eq_false_iff.mpr hp)
        exact listedAt_eq_none hu hr
      · rfl
    rw [h,Patch.apply,TrieUpdates.patch,ht,Option.bind_some,hnone]
    cases t.isDeleted <;> simp
  storageFrame a s ha := by
    rw [h]
    apply Patch.apply_of_eq_none
    simp [TrieUpdates.patch,Finmap.lookup_eq_none.mpr ha]

end Effect

/-- Writing updates is exact on both tables, frames every other row, does not depend on the order
the hash maps are met in, is idempotent, and reports for the account table the updates of
non-empty paths and the removals that found their row. -/
theorem writeTrieUpdatesWith_exact (R : Reth K S) (A : TrieTableAdapter K S) (u : TrieUpdates)
    (T : TrieTables K S) :
    ∃ written T',
      (writeTrieUpdatesWith R A u : Tx ε (TrieTables K S) ℕ).run Tx.noFault T = (.ok written,T') ∧
      WriteEffect A u T T' ∧
      (∀ sorted, IntoSorted u sorted →
        (writeSorted R A sorted : Tx ε (TrieTables K S) ℕ).run Tx.noFault T = (.ok written,T')) ∧
      (∃ again, (writeTrieUpdatesWith R A u : Tx ε (TrieTables K S) ℕ).run Tx.noFault T' =
        (.ok again,T')) ∧
      ∃ accountPart T₁,
        (writeAccountNodes A (R.intoSorted u) : Tx ε (TrieTables K S) ℕ).run Tx.noFault T =
          (.ok accountPart,T₁) ∧
        written = accountPart+u.storageEntries ∧
        accountPart = ((FiniteMap.pairs u.accountNodes).filter fun b => b.1.isEmpty = false).card +
          (u.removedNodes.filter fun p => p ∉ u.accountNodes ∧ A.accountKey p ∈ T.accounts).card := by
  obtain ⟨c,T',hy,hr⟩ := writeTrieUpdatesWith_yields (ε := ε) R A u T
  refine ⟨_,T',hy.run_noFault,writeEffect_of_row A hr,?_,?_,?_⟩
  · intro sorted hs
    obtain ⟨c',T'',hy',hr'⟩ := writeSorted_yields (ε := ε) R A hs T
    rw [hy'.run_noFault,TrieTables.ext_row (hr'.trans hr.symm)]
  · obtain ⟨c',T'',hy',hr'⟩ := writeTrieUpdatesWith_yields (ε := ε) R A u T'
    have hsame : T'' = T' := TrieTables.ext_row (by rw [hr',hr,Patch.apply_apply])
    exact ⟨_,hsame ▸ hy'.run_noFault⟩
  · obtain ⟨c₁,T₁,hy₁,-,-⟩ := writeAccountNodes_spec (ε := ε) A (R.intoSorted_spec u) T
    exact ⟨_,T₁,hy₁.run_noFault,rfl,rfl⟩

open ReferenceReth in
/-- An account node is written and one removed, and the trie of the zero address is deleted and
gets one node, over tables that hold the removed node, one more and an older storage node. -/
theorem writeTrieUpdatesWith_exact_sample :
    let n := fun i => sampleNode none i
    let t : StorageTrieUpdates := ⟨true,Finmap.singleton (n 1).path (n 1).node,∅⟩
    let u : TrieUpdates :=
      ⟨Finmap.singleton (n 1).path (n 1).node,{(n 2).path},Finmap.singleton B256.zero t⟩
    let T : TrieTables Nibbles Nibbles :=
      TrieTables.overlaid pathAdapter {} [n 2,n 3,sampleNode (some B256.zero) 2]
    T.row (.account (n 2).path) = some (n 2).node ∧
    T.row (.storage B256.zero (n 2).path) = some (n 2).node ∧
    ∃ T', (writeTrieUpdatesWith reth pathAdapter u : Tx Unit (TrieTables Nibbles Nibbles) ℕ).run
        Tx.noFault T = (.ok 3,T') ∧
      T'.row (.account (n 1).path) = some (n 1).node ∧ T'.row (.account (n 2).path) = none ∧
      T'.row (.account (n 3).path) = some (n 3).node ∧
      T'.row (.storage B256.zero (n 1).path) = some (n 1).node ∧
      T'.row (.storage B256.zero (n 2).path) = none := by
  intro n t u T
  obtain ⟨written,T',hrun,heffect,-,-,accountPart,T₁,-,hwritten,haccounts⟩ :=
    writeTrieUpdatesWith_exact (ε := Unit) reth pathAdapter u T
  have hcount : written = 3 := by rw [hwritten,haccounts]; decide
  have hlookup : u.storageTries.lookup B256.zero = some t := rfl
  refine ⟨by decide,by decide,T',hcount ▸ hrun,?_,?_,?_,?_,?_⟩
  · exact heffect.accountUpdated _ _ rfl rfl
  · exact heffect.accountRemoved _ (by decide) (by decide)
  · rw [heffect.accountFrame (n 3).path]
    · decide
    · rintro p rfl
      decide
    · rintro p rfl
      decide
  · exact heffect.storageUpdated _ t _ _ hlookup rfl rfl
  · rw [heffect.storageRest _ t _ hlookup]
    · rfl
    · rintro p rfl -
      decide

end TrieRebuild
