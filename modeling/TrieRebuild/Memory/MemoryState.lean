import TrieRebuild.Memory.PostState

/-! `MemoryState`: hashed state in ordered maps, sorted into reth's post-state once and cached
until the next insertion. -/
namespace TrieRebuild
open Foundation
variable {Account : Type}

/-- Hashed state; `once` is the cell that `sorted` fills. -/
structure MemoryState (Account : Type) where
  accounts : FiniteMap B256 Account := ∅
  storages : FiniteMap B256 (FiniteMap B256 U256) := ∅
  once : Option (HashedPostStateSorted Account) := none

namespace MemoryState

/-- Inserts or replaces an account. -/
def insertAccount (s : MemoryState Account) (hashedAddress : B256) (account : Account) :
    MemoryState Account :=
  { s with once := none, accounts := s.accounts.insert hashedAddress account }

/-- Sets a storage slot; zero removes it. -/
def insertStorage (s : MemoryState Account) (hashedAddress hashedSlot : B256) (value : U256) :
    MemoryState Account :=
  let slots := (s.storages.lookup hashedAddress).getD ∅
  let slots := if value = 0 then slots.erase hashedSlot else slots.insert hashedSlot value
  { s with once := none, storages := s.storages.insert hashedAddress slots }

def accountCount (s : MemoryState Account) : ℕ := s.accounts.keys.card

def storageCount (s : MemoryState Account) : ℕ :=
  ((FiniteMap.pairs s.storages).map fun b => b.2.keys.card).sum

/-- All accounts in key order. -/
def iterAccounts (s : MemoryState Account) : List (B256 × Account) := FiniteMap.listing s.accounts

/-- Storage of one account in key order. -/
def iterStorage (s : MemoryState Account) (hashedAddress : B256) : List StorageEntry :=
  (s.storages.lookup hashedAddress).toList.flatMap FiniteMap.listing

variable (api : PostStateApi Account)

/-- The post-state of the two loops. Storages that have lost all their slots are left out. -/
def post (s : MemoryState Account) : HashedPostState Account where
  accounts := (FiniteMap.listing s.accounts).foldl (fun m b => m.insert b.1 (some b.2)) ∅
  storages := (FiniteMap.listing s.storages).foldl
    (fun m b => if b.2 ≠ ∅ then m.insert b.1 (api.fromIter (FiniteMap.listing b.2)) else m) ∅

/-- What `sorted` fills its cell with. -/
def buildSorted (s : MemoryState Account) : HashedPostStateSorted Account :=
  api.intoSorted (s.post api)

/-- The sorted post-state, built if the cell is empty. -/
def sorted (s : MemoryState Account) : HashedPostStateSorted Account × MemoryState Account :=
  match s.once with
  | some post => (post,s)
  | none => (s.buildSorted api,{ s with once := some (s.buildSorted api) })

/-- A cursor factory reading this state. -/
def cursorFactory (s : MemoryState Account) : MemoryCursorFactory Account × MemoryState Account :=
  let (post,s) := s.sorted api
  (⟨post⟩,s)

end MemoryState

/-- The calls that change a state, its cell included. -/
inductive MemoryOp (Account : Type)
  | insertAccount (hashedAddress : B256) (account : Account)
  | insertStorage (hashedAddress hashedSlot : B256) (value : U256)
  | sorted
  | cursorFactory

namespace MemoryOp

/-- The account an insertion sets. -/
def account : MemoryOp Account → Option (B256 × Account)
  | insertAccount hashedAddress account => some (hashedAddress,account)
  | _ => none

/-- The slot an insertion sets, and to what. -/
def slot : MemoryOp Account → Option ((B256 × B256) × U256)
  | insertStorage hashedAddress hashedSlot value => some ((hashedAddress,hashedSlot),value)
  | _ => none

end MemoryOp

namespace MemoryState
variable (api : PostStateApi Account)

def apply (s : MemoryState Account) : MemoryOp Account → MemoryState Account
  | .insertAccount hashedAddress account => s.insertAccount hashedAddress account
  | .insertStorage hashedAddress hashedSlot value => s.insertStorage hashedAddress hashedSlot value
  | .sorted => (s.sorted api).2
  | .cursorFactory => (s.cursorFactory api).2

/-- The state after some calls, from the empty one. -/
def run (ops : List (MemoryOp Account)) : MemoryState Account := ops.foldl (apply api) {}

theorem run_concat (ops : List (MemoryOp Account)) (op : MemoryOp Account) :
    run api (ops ++ [op]) = (run api ops).apply api op := by
  simp [run,List.foldl_append]

/-- The value of a slot, none if it is not held. -/
def slotAt (s : MemoryState Account) (k : B256 × B256) : Option U256 :=
  (s.storages.lookup k.1).bind fun slots => slots.lookup k.2

theorem slotAt_insertStorage (s : MemoryState Account) (a slot : B256) (value : U256)
    (k : B256 × B256) :
    (s.insertStorage a slot value).slotAt k =
      if k = (a,slot) then (some value).filter fun v => decide (v ≠ 0) else s.slotAt k := by
  obtain ⟨a',slot'⟩ := k
  by_cases ha : a' = a
  · subst ha
    have hold : ((s.storages.lookup a').getD ∅).lookup slot' = s.slotAt (a',slot') := by
      rw [slotAt]
      cases s.storages.lookup a' <;> simp [Finmap.lookup_empty]
    rw [slotAt,insertStorage,FiniteMap.lookup_insert,if_pos rfl,Option.bind_some]
    by_cases hv : value = 0
    · rw [if_pos hv,FiniteMap.lookup_erase,hold]
      by_cases hs : slot' = slot <;> simp [hs,hv,Option.filter_some]
    · rw [if_neg hv,FiniteMap.lookup_insert,hold]
      by_cases hs : slot' = slot
      · simpa [hs,Option.filter_some] using hv
      · simp [hs]
  · simp [slotAt,insertStorage,ha]

/-- Reading the sorted state fills the cell and changes nothing else. -/
theorem sorted_eq (s : MemoryState Account) :
    s.sorted api = (s.once.getD (s.buildSorted api),
      { s with once := some (s.once.getD (s.buildSorted api)) }) := by
  obtain ⟨accounts,storages,once⟩ := s
  cases once <;> rfl

theorem cursorFactory_snd (s : MemoryState Account) :
    (s.cursorFactory api).2 = (s.sorted api).2 := rfl

/-- Accounts hold what was inserted last. -/
theorem lookup_accounts_run (ops : List (MemoryOp Account)) (a : B256) :
    (run api ops).accounts.lookup a = latest (ops.filterMap MemoryOp.account) a := by
  induction ops using List.reverseRecOn with
  | nil => exact Finmap.lookup_empty a
  | append_singleton ops op ih =>
    rw [run_concat,List.filterMap_append]
    cases op with
    | insertAccount a' account =>
      have hop : [MemoryOp.insertAccount a' account].filterMap MemoryOp.account = [(a',account)] :=
        rfl
      rw [hop,latest_concat,← ih]
      exact FiniteMap.lookup_insert _ _ _ _
    | insertStorage a' slot value =>
      have hop : [(.insertStorage a' slot value : MemoryOp Account)].filterMap
          MemoryOp.account = [] := rfl
      rw [hop,List.append_nil]
      exact ih
    | sorted =>
      have hop : [(.sorted : MemoryOp Account)].filterMap MemoryOp.account = [] := rfl
      rw [hop,List.append_nil,← ih,apply,sorted_eq]
    | cursorFactory =>
      have hop : [(.cursorFactory : MemoryOp Account)].filterMap MemoryOp.account = [] := rfl
      rw [hop,List.append_nil,← ih,apply,cursorFactory_snd,sorted_eq]

/-- Slots hold what they were set to last, unless that is zero. -/
theorem slotAt_run (ops : List (MemoryOp Account)) (k : B256 × B256) :
    (run api ops).slotAt k =
      (latest (ops.filterMap MemoryOp.slot) k).filter fun v => decide (v ≠ 0) := by
  induction ops using List.reverseRecOn with
  | nil => simp [slotAt,run,Finmap.lookup_empty]
  | append_singleton ops op ih =>
    rw [run_concat,List.filterMap_append]
    cases op with
    | insertAccount a account =>
      have hop : [(.insertAccount a account : MemoryOp Account)].filterMap MemoryOp.slot = [] := rfl
      rw [hop,List.append_nil]
      exact ih
    | insertStorage a slot value =>
      have hop : [(MemoryOp.insertStorage a slot value : MemoryOp Account)].filterMap
          MemoryOp.slot = [((a,slot),value)] := rfl
      rw [hop,latest_concat,apply,slotAt_insertStorage,ih]
      split_ifs <;> rfl
    | sorted =>
      have hop : [(.sorted : MemoryOp Account)].filterMap MemoryOp.slot = [] := rfl
      rw [hop,List.append_nil,← ih,apply,sorted_eq]
      rfl
    | cursorFactory =>
      have hop : [(.cursorFactory : MemoryOp Account)].filterMap MemoryOp.slot = [] := rfl
      rw [hop,List.append_nil,← ih,apply,cursorFactory_snd,sorted_eq]
      rfl

/-- No slot is held at zero. -/
theorem slotAt_run_ne_zero {ops : List (MemoryOp Account)} {k : B256 × B256} {v : U256}
    (h : (run api ops).slotAt k = some v) : v ≠ 0 := by
  rw [slotAt_run,Option.filter_eq_some_iff] at h
  simpa using h.2

/-- A read leaves what would be built now in the cell, if it held that or nothing. -/
theorem once_sorted {s : MemoryState Account}
    (h : s.once = none ∨ s.once = some (s.buildSorted api)) :
    (s.sorted api).2.once = some ((s.sorted api).2.buildSorted api) := by
  rw [sorted_eq]
  rcases h with h | h
  · rw [h]
    rfl
  · rw [h]
    rfl

/-- The cell is empty or holds what would be built now. -/
theorem once_run (ops : List (MemoryOp Account)) :
    (run api ops).once = none ∨ (run api ops).once = some ((run api ops).buildSorted api) := by
  induction ops using List.reverseRecOn with
  | nil => exact .inl rfl
  | append_singleton ops op ih =>
    rw [run_concat]
    cases op with
    | insertAccount a account => exact .inl rfl
    | insertStorage a slot value => exact .inl rfl
    | sorted => exact .inr (once_sorted api ih)
    | cursorFactory =>
      rw [apply,cursorFactory_snd]
      exact .inr (once_sorted api ih)

/-- A read returns what the maps hold now. -/
theorem sorted_run (ops : List (MemoryOp Account)) :
    ((run api ops).sorted api).1 = (run api ops).buildSorted api := by
  rw [sorted_eq]
  rcases once_run api ops with h | h
  · rw [h]
    rfl
  · rw [h]
    rfl

theorem mem_iterAccounts {s : MemoryState Account} {a : B256} {account : Account} :
    (a,account) ∈ s.iterAccounts ↔ s.accounts.lookup a = some account := FiniteMap.mem_listing

theorem mem_iterStorage {s : MemoryState Account} {a : B256} {e : StorageEntry} :
    e ∈ s.iterStorage a ↔ s.slotAt (a,e.1) = some e.2 := by
  rw [iterStorage,slotAt]
  cases s.storages.lookup a with
  | none => simp
  | some slots => simpa using FiniteMap.mem_listing (k := e.1) (v := e.2)

/-- Every held slot under its address. -/
def slotRows (s : MemoryState Account) : Multiset (B256 × StorageEntry) :=
  (FiniteMap.pairs s.storages).bind fun b => (FiniteMap.pairs b.2).map fun e => (b.1,e)

theorem nodup_slotRows (s : MemoryState Account) : s.slotRows.Nodup :=
  FiniteMap.nodup_bind_pairs fun _ slots _ => FiniteMap.nodup_pairs slots

theorem mem_slotRows {s : MemoryState Account} {r : B256 × StorageEntry} :
    r ∈ s.slotRows ↔ s.slotAt (r.1,r.2.1) = some r.2.2 := by
  obtain ⟨a,k,v⟩ := r
  simp [slotRows,slotAt,FiniteMap.mem_pairs,Option.bind_eq_some_iff]

theorem card_slotRows (s : MemoryState Account) : s.slotRows.card = s.storageCount := by
  have hcard : ∀ b : B256 × FiniteMap B256 U256, (FiniteMap.pairs b.2).card = b.2.keys.card := by
    intro b
    rw [← Finset.card_val,← FiniteMap.keys_pairs,Multiset.card_map]
  rw [slotRows,Multiset.card_bind,storageCount]
  simp only [Function.comp_def,Multiset.card_map,hcard]

section Sorted
variable (s : MemoryState Account)

theorem lookup_post_accounts (a : B256) :
    (s.post api).accounts.lookup a = (s.accounts.lookup a).map some := by
  rw [post,FiniteMap.lookup_foldl_listing (f := fun _ account => some (some account))]
  · cases s.accounts.lookup a <;> rfl
  · intro m b k
    rw [FiniteMap.lookup_insert,Option.some_or]

theorem lookup_post_storages (a : B256) :
    (s.post api).storages.lookup a = (s.storages.lookup a).bind fun slots =>
      if slots ≠ ∅ then some (api.fromIter (FiniteMap.listing slots)) else none := by
  rw [post,FiniteMap.lookup_foldl_listing (f := fun _ slots =>
    if slots ≠ ∅ then some (api.fromIter (FiniteMap.listing slots)) else none)]
  intro m b k
  by_cases hb : b.2 ≠ ∅
  · rw [if_pos hb,if_pos hb,FiniteMap.lookup_insert,Option.some_or]
  · rw [if_neg hb,if_neg hb,Option.none_or,ite_self]

/-- The sorted state serves the accounts held. -/
theorem accountRows_buildSorted :
    (s.buildSorted api).accountRows = FiniteMap.pairs s.accounts := by
  have hsorted := (api.intoSorted_spec (s.post api)).accounts
  rw [HashedPostStateSorted.accountRows,buildSorted,← Multiset.filterMap_coe,hsorted]
  have hn : ((FiniteMap.pairs (s.post api).accounts).filterMap
      fun e => e.2.map fun account => (e.1,account)).Nodup := by
    refine (FiniteMap.nodup_pairs _).filterMap _ ?_
    intro e e' r he he'
    obtain ⟨x,hx,rfl⟩ := Option.map_eq_some_iff.mp he
    obtain ⟨x',hx',hr⟩ := Option.map_eq_some_iff.mp he'
    obtain ⟨hk,rfl⟩ := Prod.mk.inj hr
    exact Prod.ext hk.symm (hx.trans hx'.symm)
  apply (Multiset.Nodup.ext hn (FiniteMap.nodup_pairs _)).mpr
  intro r
  obtain ⟨a,account⟩ := r
  rw [Multiset.mem_filterMap,FiniteMap.mem_pairs]
  constructor
  · rintro ⟨⟨a',x⟩,hm,hx⟩
    obtain ⟨y,rfl,hr⟩ := Option.map_eq_some_iff.mp hx
    obtain ⟨rfl,rfl⟩ := Prod.mk.inj hr
    rw [FiniteMap.mem_pairs,lookup_post_accounts] at hm
    simpa using hm
  · intro h
    refine ⟨(a,some account),?_,rfl⟩
    rw [FiniteMap.mem_pairs,lookup_post_accounts,h]
    rfl

/-- The slots the sorted state holds under an address. -/
theorem mem_sortedSlots {a : B256} {t : HashedStorageSorted}
    (ht : (s.buildSorted api).storages.lookup a = some t) (e : StorageEntry) :
    e ∈ t.storageSlots ↔ s.slotAt (a,e.1) = some e.2 := by
  have hs := (api.intoSorted_spec (s.post api)).storages a
  rw [← buildSorted,ht,lookup_post_storages] at hs
  cases hl : s.storages.lookup a with
  | none => simp [hl] at hs
  | some slots =>
    rw [hl,Option.bind_some] at hs
    split_ifs at hs with hne
    · have hslots := congrArg Prod.fst (Option.some.inj hs)
      dsimp only at hslots
      rw [← Multiset.mem_coe,hslots,FiniteMap.mem_pairs (k := e.1) (v := e.2),
        congrFun (api.fromIter_storage _) e.1,FiniteMap.latest_listing,slotAt,hl]
      rfl
    · simp at hs

theorem sortedSlots_eq_none {a : B256} (ht : (s.buildSorted api).storages.lookup a = none)
    (k : B256) : s.slotAt (a,k) = none := by
  have hs := (api.intoSorted_spec (s.post api)).storages a
  rw [← buildSorted,ht,lookup_post_storages] at hs
  rw [slotAt]
  cases hl : s.storages.lookup a with
  | none => rfl
  | some slots =>
    rw [hl,Option.bind_some] at hs
    split_ifs at hs with hne
    · simp at hs
    · rw [not_not.mp hne]
      exact Finmap.lookup_empty k

/-- The sorted state serves the slots held, if none is held at zero. -/
theorem storageRows_buildSorted (h : ∀ k v, s.slotAt k = some v → v ≠ 0) :
    (s.buildSorted api).storageRows = s.slotRows := by
  have hn : (s.buildSorted api).storageRows.Nodup := by
    apply FiniteMap.nodup_bind_pairs
      (f := fun t : HashedStorageSorted =>
        (t.storageSlots : Multiset StorageEntry).filter fun e => e.2 ≠ 0)
    intro a t ht
    have hk := ((api.intoSorted_spec (s.post api)).orderedSlots a t ht).imp fun h => h.ne
    exact (Multiset.coe_nodup.mpr (List.Nodup.of_map _ hk)).filter _
  apply (Multiset.Nodup.ext hn s.nodup_slotRows).mpr
  intro r
  obtain ⟨a,e⟩ := r
  rw [mem_slotRows,HashedPostStateSorted.storageRows]
  simp only [Multiset.mem_bind,Multiset.mem_map,Multiset.mem_filter,Multiset.mem_coe]
  constructor
  · rintro ⟨⟨a',t⟩,ht,e',⟨he,_⟩,hr⟩
    obtain ⟨rfl,rfl⟩ := Prod.mk.inj hr
    exact (mem_sortedSlots api s (FiniteMap.mem_pairs.mp ht) e').mp he
  · intro he
    cases ht : (s.buildSorted api).storages.lookup a with
    | none =>
      rw [sortedSlots_eq_none api s ht] at he
      cases he
    | some t =>
      exact ⟨(a,t),FiniteMap.mem_pairs.mpr ht,e,⟨(mem_sortedSlots api s ht e).mpr he,h _ _ he⟩,rfl⟩

end Sorted
end MemoryState
end TrieRebuild
