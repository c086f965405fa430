import TrieRebuild.Foundation.FiniteMap
import TrieRebuild.Trie.Types

/-! reth's post-state, which an in-memory state is sorted into, and the rows its cursors read.
Building it and sorting it are reth's code and stand as parameters. -/
namespace TrieRebuild
open Foundation

abbrev U256 := BitVec 256

/-- A slot and its value, as the hashed storage table holds them under an address. -/
abbrev StorageEntry := B256 × U256

structure HashedStorage where
  wiped : Bool
  storage : FiniteMap B256 U256

/-- Accounts, none where deleted, and storages by hashed address. -/
structure HashedPostState (Account : Type) where
  accounts : FiniteMap B256 (Option Account) := ∅
  storages : FiniteMap B256 HashedStorage := ∅

structure HashedStorageSorted where
  storageSlots : List StorageEntry
  wiped : Bool

structure HashedPostStateSorted (Account : Type) where
  accounts : List (B256 × Option Account)
  storages : FiniteMap B256 HashedStorageSorted

namespace HashedPostStateSorted
variable {Account : Type}

/-- The accounts a cursor over the post-state alone reads: the ones not deleted. -/
def accountRows (s : HashedPostStateSorted Account) : Multiset (B256 × Account) :=
  (s.accounts.filterMap fun e => e.2.map fun account => (e.1,account) : List _)

/-- The slots such a cursor reads: a zero value marks a deleted one. -/
def storageRows (s : HashedPostStateSorted Account) : Multiset (B256 × StorageEntry) :=
  (FiniteMap.pairs s.storages).bind fun t =>
    ((t.2.storageSlots : Multiset StorageEntry).filter fun e => e.2 ≠ 0).map fun e => (t.1,e)

end HashedPostStateSorted

/-- Cursors over a post-state alone, an overlay on top of nothing. -/
structure MemoryCursorFactory (Account : Type) where
  postState : HashedPostStateSorted Account

/-- What `into_sorted` makes of a post-state: everything it holds, sorted by address and slot. -/
structure SortsPostState {Account : Type} (p : HashedPostState Account)
    (s : HashedPostStateSorted Account) : Prop where
  accounts : (s.accounts : Multiset _) = FiniteMap.pairs p.accounts
  ordered : (s.accounts.map Prod.fst).Pairwise (· < ·)
  storages : ∀ a, (s.storages.lookup a).map
      (fun t => ((t.storageSlots : Multiset StorageEntry),t.wiped)) =
    (p.storages.lookup a).map fun t => (FiniteMap.pairs t.storage,t.wiped)
  orderedSlots : ∀ a t, s.storages.lookup a = some t →
    (t.storageSlots.map Prod.fst).Pairwise (· < ·)

/-- reth's side: `HashedStorage::from_iter` and `HashedPostState::into_sorted`. -/
structure PostStateApi (Account : Type) where
  fromIter : List StorageEntry → HashedStorage
  fromIter_wiped : ∀ l, (fromIter l).wiped = false
  fromIter_storage : ∀ l, (fun k => (fromIter l).storage.lookup k) = latest l
  intoSorted : HashedPostState Account → HashedPostStateSorted Account
  intoSorted_spec : ∀ p, SortsPostState p (intoSorted p)

namespace PostStateApi

/-- Sorting by listing the maps in key order. -/
def standard (Account : Type) : PostStateApi Account where
  fromIter l := ⟨false,FiniteMap.insertAll ∅ l⟩
  fromIter_wiped _ := rfl
  fromIter_storage l := by
    rw [FiniteMap.lookup_insertAll]
    funext k
    rw [overlay,Finmap.lookup_empty,Option.or_none]
  intoSorted p :=
    { accounts := FiniteMap.listing p.accounts
      storages := FiniteMap.mapValues (fun t => ⟨FiniteMap.listing t.storage,t.wiped⟩) p.storages }
  intoSorted_spec p :=
    { accounts := FiniteMap.coe_listing _
      ordered := FiniteMap.pairwise_keys_listing _
      storages := by
        intro a
        rw [FiniteMap.lookup_mapValues,Option.map_map]
        cases p.storages.lookup a with
        | none => rfl
        | some t => exact congrArg some (Prod.ext (FiniteMap.coe_listing _) rfl)
      orderedSlots := by
        intro a t ht
        rw [FiniteMap.lookup_mapValues] at ht
        obtain ⟨v,-,rfl⟩ := Option.map_eq_some_iff.mp ht
        exact FiniteMap.pairwise_keys_listing _ }

end PostStateApi
end TrieRebuild
