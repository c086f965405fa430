import TrieRebuild.Foundation.FiniteMap
import TrieRebuild.Trie.Types

/-! reth's `TrieUpdates`: maps of account and storage nodes with removals. Both collecting sinks
insert one node at a time into such maps, and a rebuild's updates hold nothing else. -/
namespace TrieRebuild
open Foundation

structure StorageTrieUpdates where
  isDeleted : Bool := false
  storageNodes : FiniteMap Nibbles BranchNodeCompact := ∅
  removedNodes : Finset Nibbles := ∅
  deriving DecidableEq

structure TrieUpdates where
  accountNodes : FiniteMap Nibbles BranchNodeCompact := ∅
  removedNodes : Finset Nibbles := ∅
  storageTries : FiniteMap B256 StorageTrieUpdates := ∅
  deriving DecidableEq

namespace TrieUpdates

/-- Inserts one node into its map and returns what the map held under its path before. The trie
of a new account starts empty. -/
def insert (u : TrieUpdates) (n : Node) : Option BranchNodeCompact × TrieUpdates :=
  match n.hashedAddress with
  | none =>
    (u.accountNodes.lookup n.path,
      { u with accountNodes := u.accountNodes.insert n.path n.node })
  | some hashedAddress =>
    let trie := (u.storageTries.lookup hashedAddress).getD {}
    let trie' := { trie with storageNodes := trie.storageNodes.insert n.path n.node }
    (trie.storageNodes.lookup n.path,
      { u with storageTries := u.storageTries.insert hashedAddress trie' })

/-- Collects nodes into one unsharded `TrieUpdates`. -/
def collect (ns : List Node) : TrieUpdates := ns.foldl (fun u n => (u.insert n).2) {}

/-- The updated node under a key. -/
def get (u : TrieUpdates) (k : NodeKey) : Option BranchNodeCompact :=
  match k.1 with
  | none => u.accountNodes.lookup k.2
  | some hashedAddress => (u.storageTries.lookup hashedAddress).bind fun t => t.storageNodes.lookup k.2

/-- All updated nodes. -/
def nodes (u : TrieUpdates) : Multiset Node :=
  (FiniteMap.pairs u.accountNodes).map (fun b => ⟨none,b.1,b.2⟩) +
    (FiniteMap.pairs u.storageTries).bind fun t =>
      (FiniteMap.pairs t.2.storageNodes).map fun b => ⟨some t.1,b.1,b.2⟩

@[simp] theorem get_none (u : TrieUpdates) (p : Nibbles) : u.get (none,p) = u.accountNodes.lookup p := rfl

@[simp] theorem get_some (u : TrieUpdates) (a : B256) (p : Nibbles) :
    u.get (some a,p) = (u.storageTries.lookup a).bind fun t => t.storageNodes.lookup p := rfl

@[simp] theorem get_empty (k : NodeKey) : ({} : TrieUpdates).get k = none := by
  obtain ⟨a,p⟩ := k
  cases a <;> simp [Finmap.lookup_empty]

theorem mem_nodes {u : TrieUpdates} {n : Node} : n ∈ u.nodes ↔ u.get n.key = some n.node := by
  obtain ⟨a,p,b⟩ := n
  cases a with
  | none => simp [nodes,Node.key,FiniteMap.mem_pairs]
  | some a =>
    simp [nodes,Node.key,FiniteMap.mem_pairs,Option.bind_eq_some_iff]

theorem nodup_nodes (u : TrieUpdates) : u.nodes.Nodup := by
  rw [nodes,Multiset.nodup_add]
  refine ⟨?_,?_,?_⟩
  · apply Multiset.Nodup.map _ (FiniteMap.nodup_pairs _)
    rintro ⟨p,b⟩ ⟨p',b'⟩ h
    simpa using h
  · apply Multiset.nodup_bind.mpr
    constructor
    · rintro ⟨a,t⟩ _
      apply Multiset.Nodup.map _ (FiniteMap.nodup_pairs _)
      rintro ⟨p,b⟩ ⟨p',b'⟩ h
      simpa using h
    · refine Multiset.Nodup.pairwise ?_ (FiniteMap.nodup_pairs _)
      rintro ⟨a,t⟩ hm ⟨a',t'⟩ hm' hne
      -- two tries under one address would be the same entry
      rw [Function.onFun,Multiset.disjoint_left]
      intro n hn hn'
      obtain ⟨_,_,rfl⟩ := Multiset.mem_map.mp hn
      obtain ⟨_,_,he⟩ := Multiset.mem_map.mp hn'
      simp only [Node.mk.injEq,Option.some.injEq] at he
      obtain rfl := he.1
      have hlook := (FiniteMap.mem_pairs.mp hm).symm.trans (FiniteMap.mem_pairs.mp hm')
      exact hne (by rw [Option.some.inj hlook])
  · rw [Multiset.disjoint_left]
    intro n hn hn'
    obtain ⟨_,_,rfl⟩ := Multiset.mem_map.mp hn
    obtain ⟨_,_,ht⟩ := Multiset.mem_bind.mp hn'
    obtain ⟨_,_,he⟩ := Multiset.mem_map.mp ht
    simp at he

/-- Insertion reports the node it replaces. -/
theorem insert_fst (u : TrieUpdates) (n : Node) : (u.insert n).1 = u.get n.key := by
  obtain ⟨a,p,b⟩ := n
  cases a with
  | none => rfl
  | some a => cases h : u.storageTries.lookup a <;> simp [insert,Node.key,h,Finmap.lookup_empty]

theorem get_insert (u : TrieUpdates) (n : Node) (k : NodeKey) :
    (u.insert n).2.get k = if k = n.key then some n.node else u.get k := by
  obtain ⟨a,p,b⟩ := n
  obtain ⟨a',p'⟩ := k
  cases a with
  | none =>
    cases a' with
    | none => simp [insert,Node.key,FiniteMap.lookup_insert]
    | some a' => simp [insert,Node.key]
  | some a =>
    cases a' with
    | none => simp [insert,Node.key]
    | some a' =>
      by_cases ha : a' = a
      · subst ha
        cases h : u.storageTries.lookup a' <;>
          simp [insert,Node.key,h,FiniteMap.lookup_insert,Finmap.lookup_empty]
      · simp [insert,Node.key,ha]

theorem get_foldl_insert (u : TrieUpdates) (ns : List Node) :
    (ns.foldl (fun u n => (u.insert n).2) u).get = overlay u.get (ns.map Node.binding) := by
  induction ns generalizing u with
  | nil => simp
  | cons n ns ih =>
    have hn : (u.insert n).2.get = overlay u.get [n.binding] := by
      funext k
      rw [get_insert,overlay]
      by_cases hk : k = n.key <;> simp [latest,hk]
    rw [List.foldl_cons,ih,hn,List.map_cons,overlay_cons u.get n.binding (ns.map _)]

/-- A collected key holds the node inserted last under it. -/
theorem get_collect (ns : List Node) : (collect ns).get = latest (ns.map Node.binding) := by
  rw [collect,get_foldl_insert]
  funext k
  simp [overlay]

theorem collect_concat (ns : List Node) (n : Node) :
    collect (ns ++ [n]) = ((collect ns).insert n).2 := by simp [collect,List.foldl_append]

@[simp] theorem collect_nil : collect [] = {} := rfl

/-- Distinct keys: the collected nodes are the nodes given. -/
theorem nodes_collect {ns : List Node} (hn : (ns.map Node.key).Nodup) :
    (collect ns).nodes = (ns : Multiset Node) := by
  have hns : ns.Nodup := List.Nodup.of_map _ hn
  apply (Multiset.Nodup.ext (nodup_nodes _) (Multiset.coe_nodup.mpr hns)).mpr
  intro n
  have hb : ((ns.map Node.binding).map Prod.fst).Nodup := by rwa [Node.map_fst_binding]
  rw [mem_nodes,get_collect,latest_eq_some_iff hb,Multiset.mem_coe]
  exact List.mem_map_of_injective Node.binding_injective (a := n)

/-- Insertions under different keys commute. -/
theorem insert_comm (u : TrieUpdates) {n m : Node} (h : n.key ≠ m.key) :
    ((u.insert n).2.insert m).2 = ((u.insert m).2.insert n).2 := by
  obtain ⟨a,p,b⟩ := n
  obtain ⟨a',p',b'⟩ := m
  cases a with
  | none =>
    cases a' with
    | none =>
      have hp : p ≠ p' := by simpa [Node.key] using h
      simp only [insert,mk.injEq,and_true]
      exact Finmap.insert_insert_of_ne _ hp
    | some a' => rfl
  | some a =>
    cases a' with
    | none => rfl
    | some a' =>
      by_cases ha : a = a'
      · subst ha
        have hp : p ≠ p' := by simpa [Node.key] using h
        simp only [insert,mk.injEq,true_and,Finmap.lookup_insert,Option.getD_some,
          Finmap.insert_insert]
        rw [Finmap.insert_insert_of_ne _ hp]
      · simp only [insert,mk.injEq,true_and,Finmap.lookup_insert_of_ne _ ha,
          Finmap.lookup_insert_of_ne _ (Ne.symm ha)]
        exact Finmap.insert_insert_of_ne _ ha

/-- Distinct keys are collected in any order alike. -/
theorem collect_perm {ns ms : List Node} (hn : (ns.map Node.key).Nodup) (h : ns.Perm ms) :
    collect ns = collect ms := by
  apply h.foldl_eq'
  intro n hn' m hm' u
  by_cases he : n.key = m.key
  · rw [List.inj_on_of_nodup_map hn hn' hm' he]
  · exact insert_comm u he

/-- Upserts alone: nothing is removed and no storage trie is flagged deleted. -/
structure Plain (u : TrieUpdates) : Prop where
  removedNodes : u.removedNodes = ∅
  storage : ∀ a t, u.storageTries.lookup a = some t → t.isDeleted = false ∧ t.removedNodes = ∅

theorem plain_empty : ({} : TrieUpdates).Plain where
  removedNodes := rfl
  storage a t h := by simp [Finmap.lookup_empty] at h

theorem Plain.insert {u : TrieUpdates} (h : u.Plain) (n : Node) : (u.insert n).2.Plain := by
  obtain ⟨a,p,b⟩ := n
  cases a with
  | none => exact ⟨h.removedNodes,h.storage⟩
  | some a =>
    refine ⟨h.removedNodes,fun a' t ht => ?_⟩
    simp only [TrieUpdates.insert,FiniteMap.lookup_insert] at ht
    split_ifs at ht with ha
    · obtain rfl := (Option.some.inj ht)
      cases hl : u.storageTries.lookup a with
      | none => simp
      | some t => simpa using h.storage a t hl
    · exact h.storage a' t ht

/-- What the sinks collect is plain. -/
theorem plain_collect (ns : List Node) : (collect ns).Plain := by
  induction ns using List.reverseRecOn with
  | nil => exact plain_empty
  | append_singleton ns n ih => rw [collect_concat]; exact ih.insert n

end TrieUpdates

/-- Drops the storage tries the updates hold nothing for. -/
def withoutEmptyStorageTries (u : TrieUpdates) : TrieUpdates :=
  let keep := fun (_ : B256) (t : StorageTrieUpdates) =>
    decide (t.storageNodes ≠ ∅) || decide (t.removedNodes ≠ ∅)
  { u with storageTries := FiniteMap.retain keep u.storageTries }

end TrieRebuild
