import TrieRebuild.Trie.Updates

/-! The two trie tables at the level of the typed cursor interface: rows under stored keys, and
the adapter that says how a key encoding stores a path. -/
namespace TrieRebuild
open Foundation

/-- One key encoding of the trie tables: `K` are the stored account keys, `S` the stored subkeys
of a storage trie. What was stored under a path decodes to that path. -/
structure TrieTableAdapter (K S : Type) where
  accountKey : Nibbles → K
  accountKeyToNibbles : K → Nibbles
  accountKey_decodes : ∀ p, accountKeyToNibbles (accountKey p) = p
  subkey : Nibbles → S
  subkeyToNibbles : S → Nibbles
  subkey_decodes : ∀ p, subkeyToNibbles (subkey p) = p

/-- The place of a row: the account trie table, or an account's entry of the storage trie table. -/
inductive RowKey (K S : Type)
  | account (key : K)
  | storage (hashedAddress : B256) (subkey : S)
  deriving DecidableEq

namespace TrieTableAdapter
variable {K S : Type} (A : TrieTableAdapter K S)

theorem accountKey_injective : Function.Injective A.accountKey :=
  Function.LeftInverse.injective A.accountKey_decodes

theorem subkey_injective : Function.Injective A.subkey :=
  Function.LeftInverse.injective A.subkey_decodes

/-- Where the node of a key is stored. -/
def rowKey (k : NodeKey) : RowKey K S :=
  match k.1 with
  | none => .account (A.accountKey k.2)
  | some hashedAddress => .storage hashedAddress (A.subkey k.2)

/-- The node key a row is read back under. -/
def nodeKey : RowKey K S → NodeKey
  | .account key => (none,A.accountKeyToNibbles key)
  | .storage hashedAddress subkey => (some hashedAddress,A.subkeyToNibbles subkey)

@[simp] theorem nodeKey_rowKey (k : NodeKey) : A.nodeKey (A.rowKey k) = k := by
  obtain ⟨a,p⟩ := k
  cases a <;> simp [nodeKey,rowKey,A.accountKey_decodes,A.subkey_decodes]

theorem rowKey_injective : Function.Injective A.rowKey :=
  Function.LeftInverse.injective A.nodeKey_rowKey

/-- The row of a node. -/
def rowBinding (n : Node) : RowKey K S × BranchNodeCompact := (A.rowKey n.key,n.node)

theorem map_rowBinding (ns : List Node) :
    ns.map A.rowBinding = (ns.map Node.binding).map fun b => (A.rowKey b.1,b.2) := by
  simp [rowBinding,List.map_map,Function.comp_def]

/-- The node a row is read as. -/
def rowNode (r : RowKey K S × BranchNodeCompact) : Node := ⟨(A.nodeKey r.1).1,(A.nodeKey r.1).2,r.2⟩

theorem rowNode_rowBinding (n : Node) : A.rowNode (A.rowBinding n) = n := by
  simp [rowNode,rowBinding,Node.key]

end TrieTableAdapter

/-- Contents of the trie tables: one node a key. The storage table keeps one entry a path and
account, as the storage cursor leaves it. -/
structure TrieTables (K S : Type) where
  accounts : FiniteMap K BranchNodeCompact := ∅
  storages : FiniteMap (B256 × S) BranchNodeCompact := ∅

namespace TrieTables
variable {K S : Type} [DecidableEq K] [DecidableEq S]

def row (T : TrieTables K S) : RowKey K S → Option BranchNodeCompact
  | .account key => T.accounts.lookup key
  | .storage hashedAddress subkey => T.storages.lookup (hashedAddress,subkey)

@[simp] theorem row_account (T : TrieTables K S) (key : K) :
    T.row (.account key) = T.accounts.lookup key := rfl

@[simp] theorem row_storage (T : TrieTables K S) (a : B256) (s : S) :
    T.row (.storage a s) = T.storages.lookup (a,s) := rfl

/-- Tables with the same rows are the same tables. -/
theorem ext_row {T T' : TrieTables K S} (h : T.row = T'.row) : T = T' := by
  obtain ⟨accounts,storages⟩ := T
  obtain ⟨accounts',storages'⟩ := T'
  obtain rfl : accounts = accounts' := Finmap.ext_lookup fun k => congrFun h (.account k)
  obtain rfl : storages = storages' := Finmap.ext_lookup fun k => congrFun h (.storage k.1 k.2)
  rfl

@[simp] theorem row_empty : ({} : TrieTables K S).row = fun _ => none := by
  funext k
  cases k <;> simp [Finmap.lookup_empty]

def upsertAccount (key : K) (node : BranchNodeCompact) (T : TrieTables K S) : TrieTables K S :=
  { T with accounts := T.accounts.insert key node }

def deleteAccount (key : K) (T : TrieTables K S) : TrieTables K S :=
  { T with accounts := T.accounts.erase key }

theorem row_upsertAccount (T : TrieTables K S) (key : K) (node : BranchNodeCompact) :
    (T.upsertAccount key node).row =
      (Patch.ofWrites [(RowKey.account key,some node)]).apply T.row := by
  funext k
  cases k with
  | account k =>
    by_cases hk : k = key <;>
      simp [upsertAccount,Patch.apply,Patch.ofWrites_cons,hk]
  | storage a s => simp [upsertAccount,Patch.apply,Patch.ofWrites_cons]

theorem row_deleteAccount (T : TrieTables K S) (key : K) :
    (T.deleteAccount key).row = (Patch.ofWrites [(RowKey.account key,none)]).apply T.row := by
  funext k
  cases k with
  | account k =>
    by_cases hk : k = key <;>
      simp [deleteAccount,Patch.apply,Patch.ofWrites_cons,hk]
  | storage a s => simp [deleteAccount,Patch.apply,Patch.ofWrites_cons]

end TrieTables

/-- The rows a read transaction sees, in their two tables. -/
structure TableRows (K S : Type) where
  accounts : Finset (K × BranchNodeCompact)
  storages : Finset ((B256 × S) × BranchNodeCompact)

namespace TableRows
variable {K S : Type}

def accountRow (r : K × BranchNodeCompact) : RowKey K S × BranchNodeCompact := (.account r.1,r.2)

def storageRow (r : (B256 × S) × BranchNodeCompact) : RowKey K S × BranchNodeCompact :=
  (.storage r.1.1 r.1.2,r.2)

/-- The rows of both tables. -/
def all (R : TableRows K S) : Multiset (RowKey K S × BranchNodeCompact) :=
  R.accounts.val.map accountRow + R.storages.val.map storageRow

theorem account_mem_all {R : TableRows K S} {k : K} {b : BranchNodeCompact} :
    (RowKey.account k,b) ∈ R.all ↔ (k,b) ∈ R.accounts := by
  simp [all,accountRow,storageRow]

theorem storage_mem_all {R : TableRows K S} {a : B256} {s : S} {b : BranchNodeCompact} :
    (RowKey.storage a s,b) ∈ R.all ↔ ((a,s),b) ∈ R.storages := by
  simp [all,accountRow,storageRow]

theorem nodup_all (R : TableRows K S) : R.all.Nodup := by
  rw [all,Multiset.nodup_add]
  refine ⟨?_,?_,?_⟩
  · apply Multiset.Nodup.map _ R.accounts.nodup
    rintro ⟨k,b⟩ ⟨k',b'⟩ h
    simpa [accountRow] using h
  · apply Multiset.Nodup.map _ R.storages.nodup
    rintro ⟨⟨a,s⟩,b⟩ ⟨⟨a',s'⟩,b'⟩ h
    simpa [storageRow] using h
  · rw [Multiset.disjoint_left]
    intro r hr hr'
    obtain ⟨_,_,rfl⟩ := Multiset.mem_map.mp hr
    obtain ⟨_,_,he⟩ := Multiset.mem_map.mp hr'
    simp [accountRow,storageRow] at he

theorem ext_all {R R' : TableRows K S} (h : R.all = R'.all) : R = R' := by
  obtain ⟨accounts,storages⟩ := R
  obtain ⟨accounts',storages'⟩ := R'
  congr 1
  · ext ⟨k,b⟩
    have hm := account_mem_all (R := ⟨accounts,storages⟩) (k := k) (b := b)
    rw [h] at hm
    exact hm.symm.trans account_mem_all
  · ext ⟨⟨a,s⟩,b⟩
    have hm := storage_mem_all (R := ⟨accounts,storages⟩) (a := a) (s := s) (b := b)
    rw [h] at hm
    exact hm.symm.trans storage_mem_all

/-- All rows, read as nodes. -/
def nodes (A : TrieTableAdapter K S) (R : TableRows K S) : Multiset Node := R.all.map A.rowNode

end TableRows

namespace TrieTables
variable {K S : Type}

def rows (T : TrieTables K S) : TableRows K S where
  accounts := ⟨FiniteMap.pairs T.accounts,FiniteMap.nodup_pairs _⟩
  storages := ⟨FiniteMap.pairs T.storages,FiniteMap.nodup_pairs _⟩

/-- The committed nodes. -/
def nodes (A : TrieTableAdapter K S) (T : TrieTables K S) : Multiset Node := T.rows.nodes A

@[simp] theorem nodes_empty (A : TrieTableAdapter K S) : ({} : TrieTables K S).nodes A = 0 := rfl

variable [DecidableEq K] [DecidableEq S]

theorem mem_all_rows {T : TrieTables K S} {k : RowKey K S} {b : BranchNodeCompact} :
    (k,b) ∈ T.rows.all ↔ T.row k = some b := by
  cases k with
  | account k => exact TableRows.account_mem_all.trans FiniteMap.mem_pairs
  | storage a s => exact TableRows.storage_mem_all.trans FiniteMap.mem_pairs

/-- Tables holding the rows of a list of nodes with distinct keys hold those nodes, once each. -/
theorem nodes_eq_of_row (A : TrieTableAdapter K S) {T : TrieTables K S} {ns : List Node}
    (hn : (ns.map Node.key).Nodup) (h : T.row = latest (ns.map A.rowBinding)) :
    T.nodes A = (ns : Multiset Node) := by
  have hkeys : ((ns.map A.rowBinding).map Prod.fst).Nodup := by
    have hm : (ns.map A.rowBinding).map Prod.fst = (ns.map Node.key).map A.rowKey := by
      simp [TrieTableAdapter.rowBinding,List.map_map,Function.comp_def]
    rw [hm]
    exact hn.map A.rowKey_injective
  have hrows : T.rows.all = (ns.map A.rowBinding : List _) := by
    have hb := List.Nodup.of_map _ hkeys
    apply (Multiset.Nodup.ext T.rows.nodup_all (Multiset.coe_nodup.mpr hb)).mpr
    rintro ⟨k,b⟩
    rw [mem_all_rows,h,latest_eq_some_iff hkeys,Multiset.mem_coe]
  rw [nodes,TableRows.nodes,hrows,Multiset.map_coe,List.map_map]
  congr 1
  exact (List.map_congr_left fun n _ => A.rowNode_rowBinding n).trans (List.map_id _)

end TrieTables
end TrieRebuild
