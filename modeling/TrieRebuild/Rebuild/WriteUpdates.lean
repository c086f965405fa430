import TrieRebuild.Foundation.Transaction
import TrieRebuild.Trie.Reth

/-! `write_trie_updates_with`: the one path on which nodes reach the trie tables. It upserts and
deletes account nodes and hands each storage trie to reth's cursor. -/
namespace TrieRebuild
open Foundation

section Program
variable {ε K S : Type} [DecidableEq K] [DecidableEq S]
variable (R : Reth K S) (A : TrieTableAdapter K S)

/-- One account entry. An update of the empty path is skipped, a removal only counts if it finds
its row. -/
def writeAccountNode (written : ℕ) (e : Nibbles × Option BranchNodeCompact) :
    Tx ε (TrieTables K S) ℕ :=
  match e.2 with
  | some node =>
    if e.1.isEmpty then pure written
    else do
      Tx.modify (TrieTables.upsertAccount (A.accountKey e.1) node)
      pure (written+1)
  | none => do
    let found ← Tx.call fun T => (T.accounts.lookup (A.accountKey e.1),T)
    if found.isSome then do
      Tx.modify (TrieTables.deleteAccount (A.accountKey e.1))
      pure (written+1)
    else pure written

/-- The loop over the account entries, on a new cursor. -/
def writeAccountNodes (sorted : TrieUpdatesSorted) : Tx ε (TrieTables K S) ℕ := do
  Tx.touch
  sorted.accountNodes.foldlM (writeAccountNode A) 0

/-- One storage trie, written by reth's cursor. -/
def writeStorageTrie (written : ℕ) (e : B256 × StorageTrieUpdatesSorted) :
    Tx ε (TrieTables K S) ℕ := do
  let entries ← Tx.call fun T =>
    let w := R.writeStorageTrieUpdatesSorted A e.1 e.2 T.storages
    (w.1,{ T with storages := w.2 })
  pure (written+entries)

/-- The loop over the storage tries in address order, on one cursor handed from trie to trie. -/
def writeStorageTries (sorted : TrieUpdatesSorted) (written : ℕ) : Tx ε (TrieTables K S) ℕ := do
  let storageTries := sorted.storageTries.insertionSort fun s t => s.1 ≤ t.1
  Tx.touch
  storageTries.foldlM (writeStorageTrie R A) written

/-- Writing updates once they are sorted. -/
def writeSorted (sorted : TrieUpdatesSorted) : Tx ε (TrieTables K S) ℕ := do
  let written ← writeAccountNodes A sorted
  writeStorageTries R A sorted written

def writeTrieUpdatesWith (u : TrieUpdates) : Tx ε (TrieTables K S) ℕ :=
  writeSorted R A (R.intoSorted u)

/-- `write_trie_updates` on a database with a given settings entry, which is read first. -/
def writeTrieUpdates (settings : Option (List UInt8)) (u : TrieUpdates) :
    Tx ε (TrieTables K S) ℕ :=
  Tx.transact do
    Tx.touch
    writeTrieUpdatesWith R (R.adapter (R.usesPackedTrieKeys settings)) u

end Program

/-- What sorted updates list under a path; an update takes precedence over a removal. -/
def listedAt (nodes : FiniteMap Nibbles BranchNodeCompact) (removed : Finset Nibbles) :
    Patch Nibbles BranchNodeCompact := fun p =>
  match nodes.lookup p with
  | some b => some (some b)
  | none => if p ∈ removed then some none else none

/-- What updates say about an account path: the empty path can be removed but not updated. -/
def TrieUpdates.accountPatch (u : TrieUpdates) : Patch Nibbles BranchNodeCompact := fun p =>
  (listedAt u.accountNodes u.removedNodes p).filter fun b => !(b.isSome && p.isEmpty)

/-- What a storage trie's updates say about a path of that trie. -/
def StorageTrieUpdates.patch (t : StorageTrieUpdates) : Patch Nibbles BranchNodeCompact := fun p =>
  if p.isEmpty then none else listedAt t.storageNodes t.removedNodes p

/-- A patch of paths, read at stored keys that encode one. -/
def onStored {L : Type} [DecidableEq L] (encode : Nibbles → L) (decode : L → Nibbles)
    (P : Patch Nibbles BranchNodeCompact) : Patch L BranchNodeCompact := fun l =>
  if encode (decode l) = l then P (decode l) else none

section Patch
variable {K S : Type} [DecidableEq K] [DecidableEq S] (A : TrieTableAdapter K S)

/-- What updates say about each stored row. -/
def TrieUpdates.patch (u : TrieUpdates) : Patch (RowKey K S) BranchNodeCompact
  | .account key => onStored A.accountKey A.accountKeyToNibbles u.accountPatch key
  | .storage hashedAddress subkey =>
    (u.storageTries.lookup hashedAddress).bind fun t =>
      (onStored A.subkey A.subkeyToNibbles t.patch subkey).or
        (if t.isDeleted then some none else none)

end Patch

/-- Account entries a write reports: updates of non-empty paths, and removals that find a row. -/
def TrieUpdates.accountEntries {K S : Type} [DecidableEq K] (A : TrieTableAdapter K S)
    (u : TrieUpdates) (T : TrieTables K S) : ℕ :=
  ((FiniteMap.pairs u.accountNodes).filter fun b => b.1.isEmpty = false).card +
    (u.removedNodes.filter fun p => p ∉ u.accountNodes ∧ A.accountKey p ∈ T.accounts).card

/-- Entries the storage cursor reports for one trie: its non-empty paths. -/
def StorageTrieUpdates.entries (t : StorageTrieUpdates) : ℕ :=
  ((FiniteMap.pairs t.storageNodes).filter fun b => b.1.isEmpty = false).card +
    (t.removedNodes.filter fun p => p ∉ t.storageNodes ∧ p.isEmpty = false).card

def TrieUpdates.storageEntries (u : TrieUpdates) : ℕ :=
  ((FiniteMap.pairs u.storageTries).map fun t => t.2.entries).sum

section Lists
variable {nodes : FiniteMap Nibbles BranchNodeCompact} {removed : Finset Nibbles}
variable {l : List (Nibbles × Option BranchNodeCompact)}

theorem ListsPaths.mem_iff (h : ListsPaths nodes removed l) (p : Nibbles)
    (b : Option BranchNodeCompact) : (p,b) ∈ l ↔ listedAt nodes removed p = some b := by
  unfold listedAt
  cases b with
  | some b =>
    rw [h.updated]
    cases nodes.lookup p <;> simp
  | none =>
    rw [h.removed,← Finmap.lookup_eq_none]
    cases nodes.lookup p <;> simp

/-- The listed entries are the updates and the removals that no update overrides. -/
theorem ListsPaths.coe_eq (h : ListsPaths nodes removed l) :
    (l : Multiset (Nibbles × Option BranchNodeCompact)) =
      (FiniteMap.pairs nodes).map (fun b => (b.1,some b.2)) +
        (removed.filter fun p => p ∉ nodes).val.map fun p => (p,none) := by
  have hnodup : ((FiniteMap.pairs nodes).map (fun b => (b.1,some b.2)) +
      (removed.filter fun p => p ∉ nodes).val.map fun p =>
        (p,(none : Option BranchNodeCompact))).Nodup := by
    rw [Multiset.nodup_add]
    refine ⟨?_,?_,?_⟩
    · apply Multiset.Nodup.map _ (FiniteMap.nodup_pairs _)
      rintro ⟨p,b⟩ ⟨p',b'⟩ h
      simpa using h
    · apply Multiset.Nodup.map _ (Finset.nodup _)
      intro p p' h
      simpa using h
    · rw [Multiset.disjoint_left]
      intro e he he'
      obtain ⟨_,_,rfl⟩ := Multiset.mem_map.mp he
      obtain ⟨_,_,h⟩ := Multiset.mem_map.mp he'
      simp at h
  have hl := Multiset.coe_nodup.mpr (List.Nodup.of_map _ h.nodup)
  apply (Multiset.Nodup.ext hl hnodup).mpr
  rintro ⟨p,b⟩
  rw [Multiset.mem_coe]
  cases b with
  | some b => simp [h.updated,FiniteMap.mem_pairs]
  | none => simp [h.removed]

/-- Counting listed entries, updates and removals apart. -/
theorem ListsPaths.length_filter (h : ListsPaths nodes removed l) (f g : Nibbles → Bool) :
    (l.filter fun e => if e.2.isSome then f e.1 else g e.1).length =
      ((FiniteMap.pairs nodes).filter fun b => f b.1).card +
        (removed.filter fun p => p ∉ nodes ∧ g p).card := by
  have hcount : (l.filter fun e => if e.2.isSome then f e.1 else g e.1).length =
      Multiset.countP (fun e : Nibbles × Option BranchNodeCompact =>
        (if e.2.isSome then f e.1 else g e.1) = true) l := by
    rw [Multiset.coe_countP,List.countP_eq_length_filter]
    simp
  rw [hcount,h.coe_eq,Multiset.countP_add,Multiset.countP_map,Multiset.countP_map,
    ← Finset.filter_filter]
  rfl

end Lists
end TrieRebuild
