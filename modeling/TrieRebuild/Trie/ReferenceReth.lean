import TrieRebuild.Trie.Reth

/-! A reference for reth's side of the interface: sorting by path and address, a storage cursor
that wipes, then replaces or deletes, and keys that wrap their path. It shows that the laws asked
of reth hold together. -/
namespace TrieRebuild
open Foundation

namespace ReferenceReth

/-- Stored keys are new types around a path. -/
def pathAdapter : TrieTableAdapter Nibbles Nibbles where
  accountKey p := p
  accountKeyToNibbles k := k
  accountKey_decodes _ := rfl
  subkey p := p
  subkeyToNibbles s := s
  subkey_decodes _ := rfl

/-- Updates first, then the removals they do not override, sorted by path. -/
def sortedNodes (nodes : FiniteMap Nibbles BranchNodeCompact) (removed : Finset Nibbles) :
    List (Nibbles × Option BranchNodeCompact) :=
  ((FiniteMap.listing nodes).map (fun b : Nibbles × BranchNodeCompact => (b.1,some b.2)) ++
    ((removed.filter fun p => p ∉ nodes).sort (· ≤ ·)).map fun p => (p,none)).insertionSort
      fun e e' => e.1 ≤ e'.1

theorem mem_sortedNodes {nodes : FiniteMap Nibbles BranchNodeCompact} {removed : Finset Nibbles}
    {e : Nibbles × Option BranchNodeCompact} : e ∈ sortedNodes nodes removed ↔
      e ∈ (FiniteMap.listing nodes).map (fun b => (b.1,some b.2)) ∨
        e ∈ ((removed.filter fun p => p ∉ nodes).sort (· ≤ ·)).map fun p => (p,none) := by
  rw [sortedNodes,(List.perm_insertionSort _ _).mem_iff,List.mem_append]

theorem listsPaths_sortedNodes (nodes : FiniteMap Nibbles BranchNodeCompact)
    (removed : Finset Nibbles) : ListsPaths nodes removed (sortedNodes nodes removed) where
  nodup := by
    have hn := FiniteMap.nodup_keys_listing nodes
    rw [sortedNodes,((List.perm_insertionSort _ _).map _).nodup_iff,List.map_append,List.map_map,
      List.map_map]
    refine List.Nodup.append hn ?_ ?_
    · simp [Function.comp_def]
    · rw [List.disjoint_left]
      intro p hp hp'
      obtain ⟨⟨q,b⟩,hb,rfl⟩ := List.mem_map.mp hp
      obtain ⟨q',hq,he⟩ := List.mem_map.mp hp'
      obtain rfl : q' = q := he
      rw [Finset.mem_sort,Finset.mem_filter] at hq
      exact hq.2 (Finmap.mem_of_lookup_eq_some (FiniteMap.mem_listing.mp hb))
  updated p b := by
    rw [mem_sortedNodes,← FiniteMap.mem_listing]
    simp
  removed p := by
    rw [mem_sortedNodes]
    simp

def intoSorted (u : TrieUpdates) : TrieUpdatesSorted where
  accountNodes := sortedNodes u.accountNodes u.removedNodes
  storageTries := (FiniteMap.listing u.storageTries).map fun t =>
    (t.1,⟨t.2.isDeleted,sortedNodes t.2.storageNodes t.2.removedNodes⟩)

theorem intoSorted_sorts (u : TrieUpdates) : IntoSorted u (intoSorted u) where
  accountNodes := listsPaths_sortedNodes _ _
  nodup := by
    rw [intoSorted,List.map_map]
    exact FiniteMap.nodup_keys_listing u.storageTries
  mem_iff a := by
    simp [intoSorted,FiniteMap.mem_listing,Finmap.mem_iff]
  storageTrie a t v hm hv := by
    obtain ⟨⟨a',v'⟩,hl,he⟩ := List.mem_map.mp hm
    simp only [Prod.mk.injEq] at he
    obtain ⟨rfl,rfl⟩ := he
    obtain rfl : v' = v := Option.some.inj ((FiniteMap.mem_listing.mp hl).symm.trans hv)
    exact ⟨rfl,listsPaths_sortedNodes _ _⟩

section Cursor
variable {S : Type} [DecidableEq S] (A : TrieTableAdapter Nibbles S)

/-- The writes of one account's cursor. -/
def cursorWrites (a : B256) (t : StorageTrieUpdatesSorted) :
    List ((B256 × S) × Option BranchNodeCompact) :=
  (t.storageNodes.filter fun e => !e.1.isEmpty).map fun e => ((a,A.subkey e.1),e.2)

def wipe (a : B256) (t : StorageTrieUpdatesSorted) (T : StorageTable S) : StorageTable S :=
  if t.isDeleted then FiniteMap.retain (fun k _ => k.1 ≠ a) T else T

def writeStorageTrieUpdatesSorted (a : B256) (t : StorageTrieUpdatesSorted) (T : StorageTable S) :
    ℕ × StorageTable S :=
  ((t.storageNodes.filter fun e => !e.1.isEmpty).length,
    FiniteMap.writeAll (wipe a t T) (cursorWrites A a t))

theorem lookup_write (a : B256) (t : StorageTrieUpdatesSorted) (T : StorageTable S) (k : B256 × S) :
    (writeStorageTrieUpdatesSorted A a t T).2.lookup k =
      (Patch.ofWrites (cursorWrites A a t)).apply (fun k => (wipe a t T).lookup k) k :=
  congrFun (FiniteMap.lookup_writeAll _ _) k

theorem lookup_wipe_self (a : B256) (t : StorageTrieUpdatesSorted) (T : StorageTable S) (s : S) :
    (wipe a t T).lookup (a,s) = if t.isDeleted then none else T.lookup (a,s) := by
  unfold wipe
  cases t.isDeleted
  · rfl
  · rw [if_pos rfl,FiniteMap.lookup_retain,if_pos rfl]
    cases T.lookup (a,s) <;> simp [Option.filter]

theorem lookup_wipe_other {a a' : B256} (h : a' ≠ a) (t : StorageTrieUpdatesSorted)
    (T : StorageTable S) (s : S) : (wipe a t T).lookup (a',s) = T.lookup (a',s) := by
  unfold wipe
  cases t.isDeleted
  · rfl
  · rw [if_pos rfl,FiniteMap.lookup_retain]
    cases T.lookup (a',s) <;> simp [Option.filter,h]

theorem storageCursor_spec : StorageCursorSpec A (writeStorageTrieUpdatesSorted A) where
  frame a t T a' s h := by
    rw [lookup_write,Patch.apply_of_eq_none,lookup_wipe_other h]
    rw [Patch.ofWrites_eq_none_iff]
    intro hm
    simp only [cursorWrites,List.map_map,List.mem_map,Function.comp_apply,Prod.mk.injEq] at hm
    obtain ⟨e,_,rfl,_⟩ := hm
    exact h rfl
  listed a t T p b hn hm hp := by
    rw [lookup_write]
    apply Patch.apply_of_eq_some
    rw [Patch.ofWrites_eq_some_iff]
    · exact List.mem_map.mpr ⟨(p,b),List.mem_filter.mpr ⟨hm,by simp [hp]⟩,rfl⟩
    · have hsub := (List.filter_sublist (l := t.storageNodes)
        (p := fun e => !e.1.isEmpty)).map Prod.fst
      have hinj := (hn.sublist hsub).map
        (f := fun p => (a,A.subkey p)) (fun p q h => A.subkey_injective (Prod.mk.inj h).2)
      simpa [cursorWrites,Function.comp_def] using hinj
  unlisted a t T s h := by
    rw [lookup_write,Patch.apply_of_eq_none,lookup_wipe_self]
    rw [Patch.ofWrites_eq_none_iff]
    intro hm
    simp only [cursorWrites,List.map_map,List.mem_map,Function.comp_apply,Prod.mk.injEq,
      List.mem_filter] at hm
    obtain ⟨e,⟨he,hp⟩,_,hs⟩ := hm
    exact h e he (by simpa using hp) hs
  entries _ _ _ := rfl

end Cursor

/-- A small node at a one-nibble path, of the state trie or of an account's storage trie. -/
def sampleNode (hashedAddress : Option B256) (nibble : Fin 16) : Node :=
  ⟨hashedAddress,⟨[nibble],by simp⟩,⟨3,0,0,[],none⟩⟩

/-- An account row and two rows of one account's storage trie. -/
def sampleRows (a b c : Fin 16) : TableRows Nibbles Nibbles where
  accounts := {((sampleNode none a).path,(sampleNode none a).node)}
  storages := {((B256.zero,(sampleNode none b).path),(sampleNode none b).node),
    ((B256.zero,(sampleNode none c).path),(sampleNode none c).node)}

/-- The text of a settings entry that selects storage v2. -/
def v2Settings : List UInt8 := "\x7b\"storage_v2\":true\x7d".toUTF8.toList

def reth : Reth Nibbles Nibbles where
  packedKeyAdapter := pathAdapter
  legacyKeyAdapter := pathAdapter
  settingsIsV2 bytes := if bytes = v2Settings then some true else none
  intoSorted := intoSorted
  intoSorted_spec := intoSorted_sorts
  writeStorageTrieUpdatesSorted := writeStorageTrieUpdatesSorted
  storageCursor_spec := storageCursor_spec

end ReferenceReth
end TrieRebuild
