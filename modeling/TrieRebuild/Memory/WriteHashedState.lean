import TrieRebuild.Foundation.Transaction
import TrieRebuild.Memory.MemoryState

/-! `write_hashed_state`: the database copy of an in-memory state. It writes storage under accounts
alone, while the sorted state serves every storage, so the two agree exactly when no storage is
without its account. -/
namespace TrieRebuild
open Foundation
variable {ε Account : Type}

/-- The hashed state tables: one account an address, and a duplicate-sorted storage table that
keeps every distinct entry put under an address. -/
structure HashedTables (Account : Type) where
  accounts : FiniteMap B256 Account := ∅
  storages : Finset (B256 × StorageEntry) := ∅

namespace HashedTables

def putAccount (b : B256 × Account) (T : HashedTables Account) : HashedTables Account :=
  { T with accounts := T.accounts.insert b.1 b.2 }

def putStorage (hashedAddress : B256) (e : StorageEntry) (T : HashedTables Account) :
    HashedTables Account :=
  { T with storages := insert (hashedAddress,e) T.storages }

end HashedTables

/-- One account and its storage. -/
def writeHashedAccount (s : MemoryState Account) (b : B256 × Account) :
    Tx ε (HashedTables Account) Unit := do
  Tx.modify (HashedTables.putAccount b)
  (s.iterStorage b.1).foldlM (fun _ e => Tx.modify (HashedTables.putStorage b.1 e)) ()

def writeHashedState (s : MemoryState Account) : Tx ε (HashedTables Account) Unit :=
  Tx.transact (s.iterAccounts.foldlM (fun _ b => writeHashedAccount s b) ())

/-- The tables a completed write leaves in an empty database. -/
def hashedCopy (s : MemoryState Account) : HashedTables Account :=
  ((writeHashedState s : Tx Unit (HashedTables Account) Unit).run Tx.noFault {}).2

/-- One account's iteration sets its row and adds its slots. -/
theorem writeHashedAccount_yields (s : MemoryState Account) (b : B256 × Account)
    (T : HashedTables Account) :
    ∃ c T', (writeHashedAccount s b : Tx ε (HashedTables Account) Unit).Yields T () c T' ∧
      T'.accounts = T.accounts.insert b.1 b.2 ∧
      ∀ r, r ∈ T'.storages ↔ r ∈ T.storages ∨ ∃ e ∈ s.iterStorage b.1, r = (b.1,e) := by
  have hloop : ∃ a c T', ((s.iterStorage b.1).foldlM
      (fun _ e => Tx.modify (HashedTables.putStorage b.1 e)) () :
        Tx ε (HashedTables Account) Unit).Yields (T.putAccount b) a c T' ∧
      T'.accounts = T.accounts.insert b.1 b.2 ∧
      ∀ r, r ∈ T'.storages ↔ r ∈ T.storages ∨ ∃ e ∈ s.iterStorage b.1, r = (b.1,e) := by
    refine Tx.yields_foldlM (fun done (_ : Unit) (T' : HashedTables Account) =>
      T'.accounts = T.accounts.insert b.1 b.2 ∧
        ∀ r, r ∈ T'.storages ↔ r ∈ T.storages ∨ ∃ e ∈ done, r = (b.1,e)) _ ?_ ?_
    · intro done e _ _ _ T₁ hi
      refine ⟨(),1,T₁.putStorage b.1 e,Tx.yields_modify _ T₁,hi.1,fun r => ?_⟩
      rw [HashedTables.putStorage,Finset.mem_insert,hi.2]
      simp only [List.mem_append,List.mem_singleton,or_and_right,exists_or,exists_eq_left]
      exact or_comm.trans or_assoc
    · exact ⟨rfl,fun r => by simp [HashedTables.putAccount]⟩
  obtain ⟨_,c,T',hy,haccounts,hstorages⟩ := hloop
  exact ⟨_,T',(Tx.yields_modify _ T).bind hy,haccounts,hstorages⟩

/-- A write to an empty database stores every account, and the slots of addresses with one. -/
theorem writeHashedState_yields (s : MemoryState Account) :
    ∃ c T, (writeHashedState s : Tx ε (HashedTables Account) Unit).Yields {} () c T ∧
      T.accounts = s.accounts ∧
      ∀ r, r ∈ T.storages ↔ r.1 ∈ s.accounts ∧ s.slotAt (r.1,r.2.1) = some r.2.2 := by
  have hloop : ∃ a c T, (s.iterAccounts.foldlM (fun _ b => writeHashedAccount s b) () :
        Tx ε (HashedTables Account) Unit).Yields {} a c T ∧
      (∀ a, T.accounts.lookup a = latest s.iterAccounts a) ∧
      ∀ r, r ∈ T.storages ↔ ∃ b ∈ s.iterAccounts, ∃ e ∈ s.iterStorage b.1, r = (b.1,e) := by
    refine Tx.yields_foldlM (fun done (_ : Unit) (T : HashedTables Account) =>
      (∀ a, T.accounts.lookup a = latest done a) ∧
        ∀ r, r ∈ T.storages ↔ ∃ b ∈ done, ∃ e ∈ s.iterStorage b.1, r = (b.1,e)) _ ?_ ?_
    · intro done b _ _ _ T₁ hi
      obtain ⟨c,T',hy,haccounts,hstorages⟩ := writeHashedAccount_yields (ε := ε) s b T₁
      refine ⟨(),c,T',hy,fun a => ?_,fun r => ?_⟩
      · rw [haccounts,FiniteMap.lookup_insert,hi.1,latest_concat]
      · rw [hstorages,hi.2]
        simp only [List.mem_append,List.mem_singleton,or_and_right,exists_or,exists_eq_left]
    · exact ⟨fun a => Finmap.lookup_empty a,fun r => by simp⟩
  obtain ⟨_,c,T,hy,haccounts,hstorages⟩ := hloop
  refine ⟨_,T,hy.transact,?_,fun r => ?_⟩
  · apply Finmap.ext_lookup
    intro a
    rw [haccounts,MemoryState.iterAccounts,FiniteMap.latest_listing]
  · rw [hstorages]
    constructor
    · rintro ⟨⟨a,account⟩,hb,e,he,rfl⟩
      exact ⟨Finmap.mem_of_lookup_eq_some (MemoryState.mem_iterAccounts.mp hb),
        MemoryState.mem_iterStorage.mp he⟩
    · rintro ⟨ha,hslot⟩
      obtain ⟨account,hb⟩ := Finmap.mem_iff.mp ha
      exact ⟨(r.1,account),MemoryState.mem_iterAccounts.mpr hb,r.2,
        MemoryState.mem_iterStorage.mpr hslot,rfl⟩

theorem hashedCopy_accounts (s : MemoryState Account) : (hashedCopy s).accounts = s.accounts := by
  obtain ⟨c,T,hy,haccounts,-⟩ := writeHashedState_yields (ε := Unit) s
  rw [hashedCopy,hy.run_noFault,haccounts]

theorem mem_hashedCopy_storages {s : MemoryState Account} {r : B256 × StorageEntry} :
    r ∈ (hashedCopy s).storages ↔ r.1 ∈ s.accounts ∧ s.slotAt (r.1,r.2.1) = some r.2.2 := by
  obtain ⟨c,T,hy,-,hstorages⟩ := writeHashedState_yields (ε := Unit) s
  rw [hashedCopy,hy.run_noFault,hstorages]

/-- The tables hold the rows the sorted state serves, as many as the state counts. -/
structure SameState (api : PostStateApi Account) (s : MemoryState Account)
    (T : HashedTables Account) : Prop where
  accounts : FiniteMap.pairs T.accounts = (s.sorted api).1.accountRows
  storages : T.storages.val = (s.sorted api).1.storageRows
  accountCount : T.accounts.keys.card = s.accountCount
  storageCount : T.storages.card = s.storageCount

section Run
variable (api : PostStateApi Account) (ops : List (MemoryOp Account))

theorem storageRows_run :
    ((MemoryState.run api ops).sorted api).1.storageRows = (MemoryState.run api ops).slotRows := by
  rw [MemoryState.sorted_run,MemoryState.storageRows_buildSorted]
  exact fun k v h => MemoryState.slotAt_run_ne_zero api h

/-- If every address with a slot has an account, the copy is the state. -/
theorem sameState_of_accounts
    (h : ∀ k v, (MemoryState.run api ops).slotAt k = some v →
      k.1 ∈ (MemoryState.run api ops).accounts) :
    SameState api (MemoryState.run api ops) (hashedCopy (MemoryState.run api ops)) := by
  have hstorages : (hashedCopy (MemoryState.run api ops)).storages.val =
      (MemoryState.run api ops).slotRows := by
    apply (Multiset.Nodup.ext (Finset.nodup _) (MemoryState.nodup_slotRows _)).mpr
    intro r
    rw [Finset.mem_val,mem_hashedCopy_storages,MemoryState.mem_slotRows]
    exact ⟨fun hr => hr.2,fun hr => ⟨h _ _ hr,hr⟩⟩
  refine ⟨?_,?_,?_,?_⟩
  · rw [hashedCopy_accounts,MemoryState.sorted_run,MemoryState.accountRows_buildSorted]
  · rw [hstorages,storageRows_run]
  · rw [hashedCopy_accounts,MemoryState.accountCount]
  · rw [← Finset.card_val,hstorages,MemoryState.card_slotRows]

/-- If the copy is the state, every address with a slot has an account. -/
theorem mem_accounts_of_sameState
    (h : SameState api (MemoryState.run api ops) (hashedCopy (MemoryState.run api ops)))
    {k : B256 × B256} {v : U256} (hv : (MemoryState.run api ops).slotAt k = some v) :
    k.1 ∈ (MemoryState.run api ops).accounts := by
  have hrow : (k.1,k.2,v) ∈ (MemoryState.run api ops).slotRows := MemoryState.mem_slotRows.mpr hv
  rw [← storageRows_run,← h.storages,Finset.mem_val,mem_hashedCopy_storages] at hrow
  exact hrow.1

theorem mem_accounts_run {a : B256} :
    a ∈ (MemoryState.run api ops).accounts ↔ ∃ account, .insertAccount a account ∈ ops := by
  rw [← Finmap.lookup_isSome,MemoryState.lookup_accounts_run,← not_iff_not,Bool.not_eq_true,
    Option.isSome_eq_false_iff,Option.isNone_iff_eq_none,latest_eq_none_iff,not_iff_not]
  simp only [List.mem_map,List.mem_filterMap]
  constructor
  · rintro ⟨b,⟨op,hop,hb⟩,rfl⟩
    cases op with
    | insertAccount a account =>
      obtain rfl := Option.some.inj hb
      exact ⟨account,hop⟩
    | insertStorage a slot value => cases hb
    | sorted => cases hb
    | cursorFactory => cases hb
  · rintro ⟨account,hop⟩
    exact ⟨(a,account),⟨_,hop,rfl⟩,rfl⟩

/-- The database copy of a state is the state exactly if every address that ends with a slot set to
a non-zero value has been inserted as an account. -/
theorem writeHashedState_same_iff :
    SameState api (MemoryState.run api ops) (hashedCopy (MemoryState.run api ops)) ↔
      ∀ a slot v, latest (ops.filterMap MemoryOp.slot) (a,slot) = some v → v ≠ 0 →
        ∃ account, .insertAccount a account ∈ ops := by
  have hslot : ∀ k v, (MemoryState.run api ops).slotAt k = some v ↔
      latest (ops.filterMap MemoryOp.slot) k = some v ∧ v ≠ 0 := by
    intro k v
    rw [MemoryState.slotAt_run,Option.filter_eq_some_iff,decide_eq_true_iff]
  constructor
  · intro h a slot v hl hv
    exact (mem_accounts_run api ops).mp
      (mem_accounts_of_sameState api ops h ((hslot (a,slot) v).mpr ⟨hl,hv⟩))
  · intro h
    apply sameState_of_accounts
    intro k v hv
    obtain ⟨hl,hne⟩ := (hslot k v).mp hv
    exact (mem_accounts_run api ops).mpr (h k.1 k.2 v hl hne)

end Run

/-- A slot set for an address that was never inserted is served but not written. -/
theorem writeHashedState_drops_storage :
    let ops : List (MemoryOp Unit) := [.insertStorage B256.zero B256.zero 1]
    ¬ SameState (.standard Unit) (MemoryState.run (.standard Unit) ops)
      (hashedCopy (MemoryState.run (.standard Unit) ops)) := by
  intro ops h
  have hslot : (MemoryState.run (.standard Unit) ops).slotAt (B256.zero,B256.zero) = some 1 := by
    rw [MemoryState.slotAt_run]
    decide
  have hm := mem_accounts_of_sameState _ ops h hslot
  exact Finmap.notMem_empty hm

end TrieRebuild
