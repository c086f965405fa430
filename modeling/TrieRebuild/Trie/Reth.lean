import TrieRebuild.Trie.Tables

/-! The reth code the repository calls but does not contain, as parameters with the behaviour
the callers rely on: sorting a `TrieUpdates`, the storage trie cursor, the two key adapters and
the settings entry that chooses between them. -/
namespace TrieRebuild
open Foundation

structure StorageTrieUpdatesSorted where
  isDeleted : Bool
  storageNodes : List (Nibbles × Option BranchNodeCompact)

/-- Sorted updates; the storage tries stand in the iteration order of their hash map. -/
structure TrieUpdatesSorted where
  accountNodes : List (Nibbles × Option BranchNodeCompact)
  storageTries : List (B256 × StorageTrieUpdatesSorted)

/-- A list names each path once: an updated path with its node, a removed and not updated path
with none. -/
structure ListsPaths (nodes : FiniteMap Nibbles BranchNodeCompact) (removed : Finset Nibbles)
    (l : List (Nibbles × Option BranchNodeCompact)) : Prop where
  nodup : (l.map Prod.fst).Nodup
  updated : ∀ p b, (p,some b) ∈ l ↔ nodes.lookup p = some b
  removed : ∀ p, (p,none) ∈ l ↔ p ∈ removed ∧ p ∉ nodes

/-- What `into_sorted` makes of a `TrieUpdates`, whatever order it meets the hash maps in. -/
structure IntoSorted (u : TrieUpdates) (s : TrieUpdatesSorted) : Prop where
  accountNodes : ListsPaths u.accountNodes u.removedNodes s.accountNodes
  nodup : (s.storageTries.map Prod.fst).Nodup
  mem_iff : ∀ a, a ∈ s.storageTries.map Prod.fst ↔ a ∈ u.storageTries
  storageTrie : ∀ a t v, (a,t) ∈ s.storageTries → u.storageTries.lookup a = some v →
    t.isDeleted = v.isDeleted ∧ ListsPaths v.storageNodes v.removedNodes t.storageNodes

abbrev StorageTable (S : Type) := FiniteMap (B256 × S) BranchNodeCompact

/-- The storage trie cursor of one account: it touches only that account's rows, wipes them if
the trie is flagged deleted, then replaces or deletes each non-empty path, and counts these. -/
structure StorageCursorSpec {K S : Type} [DecidableEq S] (A : TrieTableAdapter K S)
    (write : B256 → StorageTrieUpdatesSorted → StorageTable S → ℕ × StorageTable S) : Prop where
  frame : ∀ a t T a' s, a' ≠ a → (write a t T).2.lookup (a',s) = T.lookup (a',s)
  listed : ∀ a t T p b, (t.storageNodes.map Prod.fst).Nodup → (p,b) ∈ t.storageNodes →
    p.isEmpty = false → (write a t T).2.lookup (a,A.subkey p) = b
  unlisted : ∀ a t T s, (∀ e ∈ t.storageNodes, e.1.isEmpty = false → A.subkey e.1 ≠ s) →
    (write a t T).2.lookup (a,s) = if t.isDeleted then none else T.lookup (a,s)
  entries : ∀ a t T, (write a t T).1 = (t.storageNodes.filter fun e => !e.1.isEmpty).length

/-- reth, as far as the repository calls it. -/
structure Reth (K S : Type) [DecidableEq S] where
  packedKeyAdapter : TrieTableAdapter K S
  legacyKeyAdapter : TrieTableAdapter K S
  /-- Reading a settings entry: whether it selects storage v2, if it parses. -/
  settingsIsV2 : List UInt8 → Option Bool
  intoSorted : TrieUpdates → TrieUpdatesSorted
  intoSorted_spec : ∀ u, IntoSorted u (intoSorted u)
  writeStorageTrieUpdatesSorted : TrieTableAdapter K S → B256 → StorageTrieUpdatesSorted →
    StorageTable S → ℕ × StorageTable S
  storageCursor_spec : ∀ A, StorageCursorSpec A (writeStorageTrieUpdatesSorted A)

namespace Reth
variable {K S : Type} [DecidableEq S] (R : Reth K S)

/-- The adapter a database with or without packed keys is used with. -/
def adapter (packed : Bool) : TrieTableAdapter K S :=
  if packed then R.packedKeyAdapter else R.legacyKeyAdapter

/-- Whether the trie tables use the packed key encoding, by the settings entry of the metadata
table. Without an entry, or with one that does not parse, they do not. -/
def usesPackedTrieKeys (settings : Option (List UInt8)) : Bool :=
  (settings.bind R.settingsIsV2).getD false

end Reth
end TrieRebuild
