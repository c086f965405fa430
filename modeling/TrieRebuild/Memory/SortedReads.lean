import TrieRebuild.Memory.MemoryState

/-! What `sorted` serves: after any calls, reads among them included, exactly the accounts and
non-zero slots set last. -/
namespace TrieRebuild
open Foundation
variable {Account : Type}

/-- A sorted post-state that holds exactly some accounts and the non-zero ones of some slots. -/
structure PostStateOf (accounts : B256 → Option Account) (slots : B256 × B256 → Option U256)
    (r : HashedPostStateSorted Account) : Prop where
  mem_accounts : ∀ a x, (a,x) ∈ r.accounts ↔ ∃ account, accounts a = some account ∧ x = some account
  ordered : (r.accounts.map Prod.fst).Pairwise (· < ·)
  mem_storages : ∀ a, a ∈ r.storages ↔ ∃ k v, slots (a,k) = some v ∧ v ≠ 0
  mem_slots : ∀ a t, r.storages.lookup a = some t →
    ∀ k v, (k,v) ∈ t.storageSlots ↔ slots (a,k) = some v ∧ v ≠ 0
  orderedSlots : ∀ a t, r.storages.lookup a = some t →
    (t.storageSlots.map Prod.fst).Pairwise (· < ·)
  notWiped : ∀ a t, r.storages.lookup a = some t → t.wiped = false

/-- There is one such post-state. -/
theorem PostStateOf.unique {accounts : B256 → Option Account} {slots : B256 × B256 → Option U256}
    {r r' : HashedPostStateSorted Account} (h : PostStateOf accounts slots r)
    (h' : PostStateOf accounts slots r') : r = r' := by
  have haccounts : r.accounts = r'.accounts := FiniteMap.eq_of_pairwise_keys h.ordered h'.ordered
    fun a x => (h.mem_accounts a x).trans (h'.mem_accounts a x).symm
  have hstorages : r.storages = r'.storages := by
    apply Finmap.ext_lookup
    intro a
    have hmem : a ∈ r.storages ↔ a ∈ r'.storages := (h.mem_storages a).trans (h'.mem_storages a).symm
    cases hr : r.storages.lookup a with
    | none =>
      have hn := Finmap.lookup_eq_none.mp hr
      exact (Finmap.lookup_eq_none.mpr fun hm => hn (hmem.mpr hm)).symm
    | some t =>
      obtain ⟨t',ht'⟩ := Finmap.mem_iff.mp (hmem.mp (Finmap.mem_of_lookup_eq_some hr))
      rw [ht']
      have hslots : t.storageSlots = t'.storageSlots :=
        FiniteMap.eq_of_pairwise_keys (h.orderedSlots a t hr) (h'.orderedSlots a t' ht')
          fun k v => (h.mem_slots a t hr k v).trans (h'.mem_slots a t' ht' k v).symm
      have hwiped : t.wiped = t'.wiped := (h.notWiped a t hr).trans (h'.notWiped a t' ht').symm
      cases t
      cases t'
      simp only at hslots hwiped
      rw [hslots,hwiped]
  cases r
  cases r'
  simp only at haccounts hstorages
  rw [haccounts,hstorages]

namespace MemoryOp

/-- The account or slot an insertion sets; reads set none. -/
def key : MemoryOp Account → Option (B256 × Option B256)
  | insertAccount hashedAddress _ => some (hashedAddress,none)
  | insertStorage hashedAddress hashedSlot _ => some (hashedAddress,some hashedSlot)
  | sorted => none
  | cursorFactory => none

/-- The same insertions under each key, in the same order. -/
def SameByKey (ops ops' : List (MemoryOp Account)) : Prop :=
  ∀ key, ops.filter (fun op => op.key = some key) = ops'.filter fun op => op.key = some key

/-- Neighbours under different keys can be exchanged. -/
theorem sameByKey_swap {x y : MemoryOp Account} (h : x.key ≠ y.key)
    (before after : List (MemoryOp Account)) :
    SameByKey (before ++ x::y::after) (before ++ y::x::after) := by
  intro key
  rw [List.filter_append,List.filter_append]
  congr 1
  by_cases hx : x.key = some key <;> by_cases hy : y.key = some key
  · exact absurd (hx.trans hy.symm) h
  all_goals simp [hx,hy]

/-- Reads can be left out. -/
theorem sameByKey_inserts (ops : List (MemoryOp Account)) :
    SameByKey (ops.filter fun op => op.key.isSome) ops := by
  intro key
  rw [List.filter_filter]
  apply List.filter_congr
  intro op _
  cases h : op.key <;> simp

theorem filter_account (ops : List (MemoryOp Account)) (a : B256) :
    (ops.filterMap account).filter (fun b => b.1 = a) =
      (ops.filter fun op => op.key = some (a,none)).filterMap account := by
  rw [List.filter_filterMap,List.filterMap_filter]
  apply List.filterMap_congr
  intro op _
  cases op with
  | insertAccount a' x => by_cases ha : a' = a <;> simp [account,key,ha]
  | insertStorage a' k v => simp [account,key]
  | sorted => rfl
  | cursorFactory => rfl

theorem filter_slot (ops : List (MemoryOp Account)) (k : B256 × B256) :
    (ops.filterMap slot).filter (fun b => b.1 = k) =
      (ops.filter fun op => op.key = some (k.1,some k.2)).filterMap slot := by
  rw [List.filter_filterMap,List.filterMap_filter]
  apply List.filterMap_congr
  intro op _
  obtain ⟨a,s⟩ := k
  cases op with
  | insertAccount a' x => simp [slot,key]
  | insertStorage a' s' v => by_cases ha : a' = a <;> by_cases hs : s' = s <;> simp [slot,key,ha,hs]
  | sorted => rfl
  | cursorFactory => rfl

/-- Then the accounts and slots set last are the same. -/
theorem SameByKey.latest_account {ops ops' : List (MemoryOp Account)} (h : SameByKey ops ops') :
    latest (ops.filterMap account) = latest (ops'.filterMap account) := by
  funext a
  rw [latest_eq_getLast?,latest_eq_getLast?,filter_account,filter_account,h]

theorem SameByKey.latest_slot {ops ops' : List (MemoryOp Account)} (h : SameByKey ops ops') :
    latest (ops.filterMap slot) = latest (ops'.filterMap slot) := by
  funext k
  rw [latest_eq_getLast?,latest_eq_getLast?,filter_slot,filter_slot,h]

end MemoryOp

namespace MemoryState
variable (api : PostStateApi Account)

/-- A held account has an entry, and nothing else has. -/
theorem mem_accounts_buildSorted (s : MemoryState Account) (a : B256) (x : Option Account) :
    (a,x) ∈ (s.buildSorted api).accounts ↔ ∃ account, s.accounts.lookup a = some account ∧
      x = some account := by
  rw [buildSorted,← Multiset.mem_coe,(api.intoSorted_spec (s.post api)).accounts,
    FiniteMap.mem_pairs,lookup_post_accounts,Option.map_eq_some_iff]
  simp only [eq_comm (a := x)]

/-- A storage has an entry exactly if it holds a slot. -/
theorem mem_storages_buildSorted (s : MemoryState Account) (a : B256) :
    a ∈ (s.buildSorted api).storages ↔ ∃ k v, s.slotAt (a,k) = some v := by
  constructor
  · intro ha
    obtain ⟨t,ht⟩ := Finmap.mem_iff.mp ha
    have hs := (api.intoSorted_spec (s.post api)).storages a
    rw [← buildSorted,ht,lookup_post_storages] at hs
    cases hl : s.storages.lookup a with
    | none => simp [hl] at hs
    | some slots =>
      rw [hl,Option.bind_some] at hs
      split_ifs at hs with hne
      · by_contra hnone
        push Not at hnone
        apply hne
        apply Finmap.ext_lookup
        intro k
        rw [Finmap.lookup_empty]
        cases hk : slots.lookup k with
        | none => rfl
        | some v => exact absurd (by simp [slotAt,hl,hk]) (hnone k v)
      · simp at hs
  · rintro ⟨k,v,hv⟩
    by_contra ha
    rw [sortedSlots_eq_none api s (Finmap.lookup_eq_none.mpr ha)] at hv
    cases hv

theorem wiped_buildSorted (s : MemoryState Account) {a : B256} {t : HashedStorageSorted}
    (ht : (s.buildSorted api).storages.lookup a = some t) : t.wiped = false := by
  have hs := (api.intoSorted_spec (s.post api)).storages a
  rw [← buildSorted,ht,lookup_post_storages] at hs
  cases hl : s.storages.lookup a with
  | none => simp [hl] at hs
  | some slots =>
    rw [hl,Option.bind_some] at hs
    split_ifs at hs with hne
    · have hw := congrArg Prod.snd (Option.some.inj hs)
      exact hw.trans (api.fromIter_wiped _)
    · simp at hs

/-- A read serves the accounts and non-zero slots set last. -/
theorem sorted_postStateOf (ops : List (MemoryOp Account)) :
    PostStateOf (latest (ops.filterMap MemoryOp.account)) (latest (ops.filterMap MemoryOp.slot))
      ((run api ops).sorted api).1 := by
  have hslot : ∀ k v, (run api ops).slotAt k = some v ↔
      latest (ops.filterMap MemoryOp.slot) k = some v ∧ v ≠ 0 := by
    intro k v
    rw [slotAt_run,Option.filter_eq_some_iff,decide_eq_true_iff]
  have hspec := api.intoSorted_spec ((run api ops).post api)
  rw [sorted_run]
  refine ⟨fun a x => ?_,hspec.ordered,fun a => ?_,fun a t ht k v => ?_,hspec.orderedSlots,
    fun a t => wiped_buildSorted api _⟩
  · rw [mem_accounts_buildSorted]
    simp only [lookup_accounts_run]
  · rw [mem_storages_buildSorted]
    simp only [hslot]
  · rw [mem_sortedSlots api _ ht (k,v)]
    exact hslot (a,k) v

/-- Inserting the same under each key in the same order, with reads anywhere, a read serves the
same. -/
theorem sorted_eq_of_sameByKey {ops ops' : List (MemoryOp Account)}
    (h : MemoryOp.SameByKey ops ops') :
    ((run api ops).sorted api).1 = ((run api ops').sorted api).1 := by
  have hops := sorted_postStateOf api ops
  rw [h.latest_account,h.latest_slot] at hops
  exact hops.unique (sorted_postStateOf api ops')

/-- The state counts the accounts it serves. -/
theorem accountCount_buildSorted (s : MemoryState Account) :
    s.accountCount = (s.buildSorted api).accounts.length := by
  have hkeys : (s.post api).accounts.keys = s.accounts.keys := by
    ext a
    rw [Finmap.mem_keys,Finmap.mem_keys,← Finmap.lookup_isSome,← Finmap.lookup_isSome,
      lookup_post_accounts,Option.isSome_map]
  have hcard := congrArg Multiset.card (api.intoSorted_spec (s.post api)).accounts
  rw [← Multiset.card_map Prod.fst (FiniteMap.pairs _),FiniteMap.keys_pairs,hkeys] at hcard
  exact hcard.symm

/-- The state counts the slots it serves, if none is held at zero. -/
theorem storageCount_buildSorted (s : MemoryState Account)
    (h : ∀ k v, s.slotAt k = some v → v ≠ 0) :
    s.storageCount =
      ((FiniteMap.pairs (s.buildSorted api).storages).map fun t => t.2.storageSlots.length).sum := by
  rw [← card_slotRows,← storageRows_buildSorted api s h,HashedPostStateSorted.storageRows,
    Multiset.card_bind]
  congr 1
  apply Multiset.map_congr rfl
  intro t ht
  have hall : ∀ e ∈ (t.2.storageSlots : Multiset StorageEntry), e.2 ≠ 0 := fun e he =>
    h _ _ ((mem_sortedSlots api s (FiniteMap.mem_pairs.mp ht) e).mp he)
  rw [Function.comp_apply,Multiset.card_map,Multiset.filter_eq_self.mpr hall,Multiset.coe_card]

/-- Every read serves exactly the accounts and non-zero slots set last before it: the same as a
fresh state without reads, and as one that makes insertions under different keys in another order,
two neighbours exchanged or all of them. The state counts what it serves. -/
theorem sorted_serves_latest (ops : List (MemoryOp Account)) :
    PostStateOf (latest (ops.filterMap MemoryOp.account)) (latest (ops.filterMap MemoryOp.slot))
      ((run api ops).sorted api).1 ∧
    ((run api ops).cursorFactory api).1.postState = ((run api ops).sorted api).1 ∧
    ((run api ops).sorted api).1 =
      ((run api (ops.filter fun op => op.key.isSome)).sorted api).1 ∧
    (∀ ops', MemoryOp.SameByKey ops ops' →
      ((run api ops).sorted api).1 = ((run api ops').sorted api).1) ∧
    (∀ before x y after, ops = before ++ x::y::after → x.key ≠ y.key →
      ((run api ops).sorted api).1 = ((run api (before ++ y::x::after)).sorted api).1) ∧
    (run api ops).accountCount = ((run api ops).sorted api).1.accounts.length ∧
    (run api ops).storageCount = ((FiniteMap.pairs ((run api ops).sorted api).1.storages).map
      fun t => t.2.storageSlots.length).sum := by
  refine ⟨sorted_postStateOf api ops,rfl,?_,fun ops' => sorted_eq_of_sameByKey api,?_,?_,?_⟩
  · exact (sorted_eq_of_sameByKey api (MemoryOp.sameByKey_inserts ops)).symm
  · rintro before x y after rfl hkey
    exact sorted_eq_of_sameByKey api (MemoryOp.sameByKey_swap hkey before after)
  · rw [sorted_run,accountCount_buildSorted]
  · rw [sorted_run,storageCount_buildSorted api]
    exact fun k v hv => slotAt_run_ne_zero api hv

end MemoryState
end TrieRebuild
