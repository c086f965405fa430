import TrieRebuild.Rebuild.WriteSpec

/-! Updates without removals, which is what a rebuild and the writer produce: a write overlays
the tables with the updated nodes of non-empty paths and reports how many there are. -/
namespace TrieRebuild
open Foundation

/-- Nodes with an empty path never reach the tables. -/
def Node.storable (n : Node) : Bool := !n.path.isEmpty

namespace TrieUpdates

theorem nodup_keys_nodes (u : TrieUpdates) : (u.nodes.map Node.key).Nodup := by
  apply Multiset.Nodup.map_on _ u.nodup_nodes
  intro n hn m hm hk
  have h := (mem_nodes.mp hn).symm.trans ((congrArg u.get hk).trans (mem_nodes.mp hm))
  apply Node.binding_injective
  rw [Node.binding,Node.binding,hk,Option.some.inj h]

/-- The updates are the bindings of their nodes. -/
theorem get_eq_latest {u : TrieUpdates} {ns : List Node} (h : u.nodes = ns) :
    u.get = latest (ns.map Node.binding) := by
  have hk : (ns.map Node.key).Nodup := by
    have hu := u.nodup_keys_nodes
    rwa [h,Multiset.map_coe,Multiset.coe_nodup] at hu
  funext k
  apply Option.ext
  intro b
  rw [latest_eq_some_iff (by rwa [Node.map_fst_binding])]
  have hm : (k,b) = (⟨k.1,k.2,b⟩ : Node).binding := rfl
  rw [hm,List.mem_map_of_injective Node.binding_injective,← Multiset.mem_coe,← h,mem_nodes]
  rfl

/-- Nothing is removed, neither from the account trie nor from a storage trie. -/
structure NoRemovals (u : TrieUpdates) : Prop where
  account : u.removedNodes = ∅
  storage : ∀ a t, u.storageTries.lookup a = some t → t.removedNodes = ∅

theorem Plain.noRemovals {u : TrieUpdates} (h : u.Plain) : u.NoRemovals where
  account := h.removedNodes
  storage a t ht := (h.storage a t ht).2

/-- Without removals a write reports the updated nodes of non-empty paths. -/
theorem NoRemovals.entries {K S : Type} [DecidableEq K] {u : TrieUpdates} (h : u.NoRemovals)
    (A : TrieTableAdapter K S) (T : TrieTables K S) :
    u.accountEntries A T+u.storageEntries = (u.nodes.filter fun n => n.storable).card := by
  have htrie : ∀ t ∈ FiniteMap.pairs u.storageTries, t.2.entries =
      Multiset.card ((FiniteMap.pairs t.2.storageNodes).filter fun b => b.1.isEmpty = false) := by
    rintro ⟨a,t⟩ ht
    simp [StorageTrieUpdates.entries,h.storage a t (FiniteMap.mem_pairs.mp ht)]
  rw [storageEntries,Multiset.map_congr rfl htrie]
  simp only [accountEntries,h.account,nodes,Multiset.filter_add,Multiset.filter_map,
    Multiset.card_add,Multiset.card_map,Multiset.filter_bind,Multiset.card_bind,Node.storable,
    Function.comp_def,Bool.not_eq_true',Finset.filter_empty,Finset.card_empty,Nat.add_zero]

end TrieUpdates

namespace TrieTableAdapter
variable {K S : Type} [DecidableEq K] [DecidableEq S] (A : TrieTableAdapter K S)

/-- The rows that store a keyed set of nodes. -/
def rowsOf (g : NodeKey → Option BranchNodeCompact) : RowKey K S → Option BranchNodeCompact :=
  fun k => if A.rowKey (A.nodeKey k) = k ∧ (A.nodeKey k).2.isEmpty = false
    then g (A.nodeKey k) else none

theorem rowsOf_rowKey (g : NodeKey → Option BranchNodeCompact) (k : NodeKey) :
    A.rowsOf g (A.rowKey k) = if k.2.isEmpty then none else g k := by
  unfold rowsOf
  cases h : k.2.isEmpty <;> simp [h]

/-- Rows tell apart what is bound under non-empty paths, and nothing else. -/
theorem rowsOf_eq_iff (g g' : NodeKey → Option BranchNodeCompact) :
    A.rowsOf g = A.rowsOf g' ↔ ∀ k : NodeKey, k.2.isEmpty = false → g k = g' k := by
  constructor
  · intro h k hk
    have hrow := congrFun h (A.rowKey k)
    simpa [rowsOf_rowKey,hk] using hrow
  · intro h
    funext k
    unfold rowsOf
    split_ifs with hk
    · exact h _ hk.2
    · rfl

/-- The rows of a stream are the last bindings of its storable nodes. -/
theorem rowsOf_latest (ns : List Node) :
    A.rowsOf (latest (ns.map Node.binding)) =
      latest ((ns.filter Node.storable).map A.rowBinding) := by
  have hf : (ns.filter Node.storable).map Node.binding =
      (ns.map Node.binding).filter fun b => !b.1.2.isEmpty := by
    rw [List.filter_map]
    rfl
  funext k
  rw [map_rowBinding,hf]
  unfold rowsOf
  by_cases hk : A.rowKey (A.nodeKey k) = k
  · have hl := latest_map A.rowKey_injective
      ((ns.map Node.binding).filter fun b => !b.1.2.isEmpty) (A.nodeKey k)
    rw [hk] at hl
    rw [hl,latest_filter (fun b : NodeKey => !b.2.isEmpty)]
    simp [hk]
  · -- a row under a key that encodes no path is never written
    rw [if_neg fun h => hk h.1]
    symm
    apply latest_map_eq_none
    intro b hb
    exact hk (by rw [← hb,A.nodeKey_rowKey])

end TrieTableAdapter

section Write
variable {K S : Type} [DecidableEq K] [DecidableEq S] (A : TrieTableAdapter K S)

/-- Without removals the patch overlays the updated nodes, provided a trie flagged deleted has no
rows to lose. -/
theorem TrieUpdates.NoRemovals.patch_apply {u : TrieUpdates} (h : u.NoRemovals)
    (f : RowKey K S → Option BranchNodeCompact)
    (hf : ∀ a t s, u.storageTries.lookup a = some t → t.isDeleted → f (.storage a s) = none) :
    (u.patch A).apply f = fun k => (A.rowsOf u.get k).or (f k) := by
  funext k
  cases k with
  | account key =>
    simp only [Patch.apply,TrieUpdates.patch,onStored,TrieUpdates.accountPatch,listedAt,h.account,
      TrieTableAdapter.rowsOf,TrieTableAdapter.nodeKey,TrieTableAdapter.rowKey,RowKey.account.injEq,
      TrieUpdates.get_none]
    by_cases hk : A.accountKey (A.accountKeyToNibbles key) = key
    · cases u.accountNodes.lookup (A.accountKeyToNibbles key) with
      | none => simp
      | some b => cases he : (A.accountKeyToNibbles key).isEmpty <;> simp [hk,Option.filter]
    · simp [hk]
  | storage a s =>
    simp only [Patch.apply,TrieUpdates.patch,onStored,StorageTrieUpdates.patch,listedAt,
      TrieTableAdapter.rowsOf,TrieTableAdapter.nodeKey,TrieTableAdapter.rowKey,
      RowKey.storage.injEq,true_and,TrieUpdates.get_some]
    cases ht : u.storageTries.lookup a with
    | none => simp
    | some t =>
      -- the flag alone clears nothing, as there is nothing to clear
      have hgone : ((if t.isDeleted then some none else none :
          Option (Option BranchNodeCompact))).getD (f (.storage a s)) = f (.storage a s) := by
        cases hd : t.isDeleted with
        | false => rfl
        | true => simp [hf a t s ht hd]
      simp only [Option.bind_some,h.storage a t ht,Finset.notMem_empty,if_false]
      by_cases hk : A.subkey (A.subkeyToNibbles s) = s
      · cases he : (A.subkeyToNibbles s).isEmpty with
        | true => simpa [hk] using hgone
        | false =>
          cases t.storageNodes.lookup (A.subkeyToNibbles s) with
          | none => simpa [hk] using hgone
          | some b => simp [hk]
      · simpa [hk] using hgone

/-- Tables with one node stored in its row. -/
def TrieTables.store (T : TrieTables K S) (n : Node) : TrieTables K S :=
  if n.storable then
    match n.hashedAddress with
    | none => { T with accounts := T.accounts.insert (A.accountKey n.path) n.node }
    | some hashedAddress =>
      { T with storages := T.storages.insert (hashedAddress,A.subkey n.path) n.node }
  else T

/-- Tables overlaid with a stream of nodes. -/
def TrieTables.overlaid (T : TrieTables K S) (ns : List Node) : TrieTables K S :=
  ns.foldl (TrieTables.store A) T

theorem TrieTables.row_store (T : TrieTables K S) (n : Node) :
    (T.store A n).row = overlay T.row (([n].filter Node.storable).map A.rowBinding) := by
  obtain ⟨a,p,b⟩ := n
  funext k
  unfold store
  by_cases hs : (⟨a,p,b⟩ : Node).storable
  · cases a <;> cases k <;>
      simp [hs,overlay,latest,TrieTableAdapter.rowBinding,TrieTableAdapter.rowKey,Node.key,
        FiniteMap.lookup_insert] <;> split_ifs <;> simp
  · simp [hs]

@[simp] theorem TrieTables.overlaid_nil (T : TrieTables K S) : T.overlaid A [] = T := rfl

theorem TrieTables.overlaid_append (T : TrieTables K S) (ns ms : List Node) :
    T.overlaid A (ns ++ ms) = (T.overlaid A ns).overlaid A ms := by
  simp [overlaid,List.foldl_append]

theorem TrieTables.row_overlaid (T : TrieTables K S) (ns : List Node) :
    (T.overlaid A ns).row = overlay T.row ((ns.filter Node.storable).map A.rowBinding) := by
  induction ns using List.reverseRecOn with
  | nil => simp
  | append_singleton ns n ih =>
    rw [overlaid_append,List.filter_append,List.map_append,overlay_append,← ih]
    exact row_store A _ n

/-- Distinct nodes may overlay the tables in any order. -/
theorem TrieTables.overlaid_perm (T : TrieTables K S) {ns ms : List Node} (h : ns.Perm ms)
    (hn : (ns.map Node.key).Nodup) : T.overlaid A ns = T.overlaid A ms := by
  apply ext_row
  have hrows : ((ns.filter Node.storable).map A.rowBinding).map Prod.fst =
      ((ns.filter Node.storable).map Node.key).map A.rowKey := by
    rw [List.map_map,List.map_map]
    rfl
  have hkeys : (((ns.filter Node.storable).map A.rowBinding).map Prod.fst).Nodup := by
    rw [hrows]
    exact (hn.sublist (List.filter_sublist.map _)).map A.rowKey_injective
  rw [row_overlaid,row_overlaid]
  unfold overlay
  rw [latest_perm ((h.filter _).map _) hkeys]

/-- Collected nodes overlay the tables, the last of each key prevailing. -/
theorem patch_collect (ns : List Node) (T : TrieTables K S) :
    ((TrieUpdates.collect ns).patch A).apply T.row = (T.overlaid A ns).row := by
  have hp := TrieUpdates.plain_collect ns
  have h := hp.noRemovals.patch_apply A T.row (fun a t s ht hd => by
    rw [(hp.storage a t ht).1] at hd
    simp at hd)
  rw [h,TrieUpdates.get_collect,A.rowsOf_latest,T.row_overlaid]
  rfl

/-- Writing collected nodes overlays the tables with them. -/
theorem writeCollected_yields {ε : Type} (R : Reth K S) (ns : List Node) (T : TrieTables K S) :
    ∃ c, (writeTrieUpdatesWith R A (TrieUpdates.collect ns) : Tx ε (TrieTables K S) ℕ).Yields T
      ((TrieUpdates.collect ns).nodes.filter fun n => n.storable).card c (T.overlaid A ns) := by
  obtain ⟨c,T',hy,hr⟩ := writeTrieUpdatesWith_yields (ε := ε) R A (TrieUpdates.collect ns) T
  rw [(TrieUpdates.plain_collect ns).noRemovals.entries] at hy
  obtain rfl := TrieTables.ext_row (hr.trans (patch_collect A ns T))
  exact ⟨c,hy⟩

/-- Nodes with distinct keys, stored in empty tables, are the table's nodes. -/
theorem TrieTables.nodes_overlaid_empty {ns : List Node} (hn : (ns.map Node.key).Nodup) :
    (({} : TrieTables K S).overlaid A ns).nodes A = (ns.filter Node.storable : List Node) := by
  apply nodes_eq_of_row A (hn.sublist ((List.filter_sublist).map _))
  rw [row_overlaid,row_empty]
  funext k
  simp [overlay]

end Write
end TrieRebuild
