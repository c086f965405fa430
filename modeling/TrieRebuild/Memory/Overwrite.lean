import TrieRebuild.Memory.WriteHashedState

/-! `write_hashed_state` on tables that are not empty: accounts are replaced, slots come to those
that are there, and a second write of the same state changes nothing. -/
namespace TrieRebuild
open Foundation
variable {ε Account : Type}

/-- The slots of a state under addresses with an account. -/
def MemoryState.ownedSlots (s : MemoryState Account) : Finset (B256 × StorageEntry) :=
  (⟨s.slotRows,s.nodup_slotRows⟩ : Finset (B256 × StorageEntry)).filter fun r => r.1 ∈ s.accounts

theorem MemoryState.mem_ownedSlots {s : MemoryState Account} {r : B256 × StorageEntry} :
    r ∈ s.ownedSlots ↔ r.1 ∈ s.accounts ∧ s.slotAt (r.1,r.2.1) = some r.2.2 := by
  rw [ownedSlots,Finset.mem_filter,Finset.mem_mk,mem_slotRows,and_comm]

namespace HashedTables

/-- Tables with a state put over them. -/
def overwrite (T : HashedTables Account) (s : MemoryState Account) : HashedTables Account where
  accounts := FiniteMap.extend T.accounts s.accounts
  storages := T.storages ∪ s.ownedSlots

theorem lookup_overwrite (T : HashedTables Account) (s : MemoryState Account) (a : B256) :
    (T.overwrite s).accounts.lookup a = (s.accounts.lookup a).or (T.accounts.lookup a) :=
  FiniteMap.lookup_extend T.accounts s.accounts a

theorem ext_lookup {T U : HashedTables Account}
    (ha : ∀ a, T.accounts.lookup a = U.accounts.lookup a) (hs : ∀ r, r ∈ T.storages ↔ r ∈ U.storages) :
    T = U := by
  cases T
  cases U
  congr
  · exact Finmap.ext_lookup ha
  · exact Finset.ext hs

/-- A state put over tables that have it already changes nothing. -/
@[simp] theorem overwrite_overwrite (T : HashedTables Account) (s : MemoryState Account) :
    (T.overwrite s).overwrite s = T.overwrite s := by
  apply ext_lookup
  · intro a
    rw [lookup_overwrite,lookup_overwrite]
    cases s.accounts.lookup a <;> rfl
  · intro r
    simp [overwrite]

/-- Nor does it matter how often it has been put there. -/
theorem foldl_overwrite_self (T : HashedTables Account) {s : MemoryState Account}
    {states : List (MemoryState Account)} (h : ∀ s' ∈ states, s' = s) :
    states.foldl overwrite (T.overwrite s) = T.overwrite s := by
  induction states with
  | nil => rfl
  | cons s' states ih =>
    obtain ⟨rfl,h⟩ := List.forall_mem_cons.mp h
    rw [List.foldl_cons,overwrite_overwrite,ih h]

theorem overwrite_foldl (T : HashedTables Account) {s : MemoryState Account}
    {states : List (MemoryState Account)} (h : ∀ s' ∈ states, s' = s) :
    (states.foldl overwrite T).overwrite s = T.overwrite s := by
  cases states with
  | nil => rfl
  | cons s' states =>
    obtain ⟨rfl,h⟩ := List.forall_mem_cons.mp h
    rw [List.foldl_cons,foldl_overwrite_self T h,overwrite_overwrite]

end HashedTables

/-- The loops put the state over whatever is in the tables. -/
theorem writeHashedState_overwrites (s : MemoryState Account) (T : HashedTables Account) :
    ∃ c, (writeHashedState s : Tx ε (HashedTables Account) Unit).Yields T () c (T.overwrite s) := by
  have hloop : ∃ a c T', (s.iterAccounts.foldlM (fun _ b => writeHashedAccount s b) () :
        Tx ε (HashedTables Account) Unit).Yields T a c T' ∧
      (∀ a, T'.accounts.lookup a = (latest s.iterAccounts a).or (T.accounts.lookup a)) ∧
      ∀ r, r ∈ T'.storages ↔
        r ∈ T.storages ∨ ∃ b ∈ s.iterAccounts, ∃ e ∈ s.iterStorage b.1, r = (b.1,e) := by
    refine Tx.yields_foldlM (fun done (_ : Unit) (T' : HashedTables Account) =>
      (∀ a, T'.accounts.lookup a = (latest done a).or (T.accounts.lookup a)) ∧
        ∀ r, r ∈ T'.storages ↔
          r ∈ T.storages ∨ ∃ b ∈ done, ∃ e ∈ s.iterStorage b.1, r = (b.1,e)) _ ?_ ?_
    · intro done b _ _ _ T₁ hi
      obtain ⟨c,T',hy,haccounts,hstorages⟩ := writeHashedAccount_yields (ε := ε) s b T₁
      refine ⟨(),c,T',hy,fun a => ?_,fun r => ?_⟩
      · rw [haccounts,FiniteMap.lookup_insert,hi.1,latest_concat]
        split_ifs <;> rfl
      · rw [hstorages,hi.2,or_assoc]
        simp only [List.mem_append,List.mem_singleton,or_and_right,exists_or,exists_eq_left]
    · exact ⟨fun a => rfl,fun r => by simp⟩
  obtain ⟨_,c,T',hy,haccounts,hstorages⟩ := hloop
  have hT : T' = T.overwrite s := by
    apply HashedTables.ext_lookup
    · intro a
      rw [haccounts,HashedTables.lookup_overwrite,MemoryState.iterAccounts,FiniteMap.latest_listing]
    · intro r
      rw [hstorages,HashedTables.overwrite,Finset.mem_union,MemoryState.mem_ownedSlots]
      refine or_congr_right ⟨?_,?_⟩
      · rintro ⟨⟨a,account⟩,hb,e,he,rfl⟩
        exact ⟨Finmap.mem_of_lookup_eq_some (MemoryState.mem_iterAccounts.mp hb),
          MemoryState.mem_iterStorage.mp he⟩
      · rintro ⟨ha,hslot⟩
        obtain ⟨account,hb⟩ := Finmap.mem_iff.mp ha
        exact ⟨(r.1,account),MemoryState.mem_iterAccounts.mpr hb,r.2,
          MemoryState.mem_iterStorage.mpr hslot,rfl⟩
  rw [hT] at hy
  exact ⟨_,hy.transact⟩

/-- Empty tables come to hold the copy. -/
theorem overwrite_empty (s : MemoryState Account) :
    ({} : HashedTables Account).overwrite s = hashedCopy s := by
  obtain ⟨c,hy⟩ := writeHashedState_overwrites (ε := Unit) s {}
  rw [hashedCopy,hy.run_noFault]

end TrieRebuild
