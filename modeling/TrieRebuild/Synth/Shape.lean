import TrieRebuild.Synth.SynthRun

/-! The shape of a synthetic state. With fewer than 2^64 draws no key is drawn twice, so no
insertion overwrites another one, and the state has the accounts and slots configured. -/
namespace TrieRebuild
open Foundation

namespace MemoryState
variable {A : Type} (api : PostStateApi A)

/-- A storage has an entry once a slot of it was set. -/
theorem mem_storages_run (ops : List (MemoryOp A)) (a : B256) :
    a ∈ (run api ops).storages ↔ a ∈ (ops.filterMap MemoryOp.slot).map fun e => e.1.1 := by
  induction ops using List.reverseRecOn with
  | nil => simp [run,Finmap.notMem_empty]
  | append_singleton ops op ih =>
    rw [run_concat,List.filterMap_append,List.map_append,List.mem_append,← ih]
    cases op with
    | insertAccount a' x => simp [apply,insertAccount,MemoryOp.slot]
    | insertStorage a' k v => simp [apply,insertStorage,MemoryOp.slot,or_comm]
    | sorted => simp [apply,sorted_eq,MemoryOp.slot]
    | cursorFactory => simp [apply,cursorFactory_snd,sorted_eq,MemoryOp.slot]

theorem nodup_iterStorage (s : MemoryState A) (a : B256) : (s.iterStorage a).Nodup := by
  rw [iterStorage]
  cases s.storages.lookup a with
  | none => exact List.nodup_nil
  | some slots => simpa using FiniteMap.nodup_listing slots

/-- Accounts inserted under distinct addresses are all held. -/
theorem accountCount_of_nodup {ops : List (MemoryOp A)}
    (h : ((ops.filterMap MemoryOp.account).map Prod.fst).Nodup) :
    (run api ops).accountCount = (ops.filterMap MemoryOp.account).length := by
  have hkeys : (run api ops).accounts.keys =
      ((ops.filterMap MemoryOp.account).map Prod.fst).toFinset := by
    ext a
    rw [Finmap.mem_keys,← Finmap.lookup_isSome,lookup_accounts_run,List.mem_toFinset,
      Option.isSome_iff_ne_none,Ne,latest_eq_none_iff,not_not]
  rw [accountCount,hkeys,List.toFinset_card_of_nodup h,List.length_map]

end MemoryState

/-- The calls a contract or an externally owned account makes. -/
def plannedCalls (eoas : List (B256 × Account)) (contracts : List Contract) :
    List (MemoryOp Account) :=
  eoas.map (fun e => .insertAccount e.1 e.2) ++ contracts.flatMap Contract.calls

theorem Contract.account_calls (c : Contract) :
    c.calls.filterMap MemoryOp.account = [(c.address,c.account)] := by
  have haccount : (MemoryOp.insertAccount c.address c.account).account =
    some (c.address,c.account) := rfl
  have hslots : (c.slots.map fun e => (.insertStorage c.address e.1 e.2 : MemoryOp Account)).filterMap
      MemoryOp.account = [] := by
    rw [List.filterMap_map]
    exact List.filterMap_eq_nil_iff.mpr fun _ _ => rfl
  rw [calls,List.filterMap_cons_some haccount,hslots]

theorem Contract.slot_calls (c : Contract) :
    c.calls.filterMap MemoryOp.slot = c.slots.map fun e => ((c.address,e.1),e.2) := by
  rw [calls,List.filterMap_cons_none rfl,List.filterMap_map]
  exact congrFun List.filterMap_eq_map c.slots

section Planned
variable (eoas : List (B256 × Account)) (contracts : List Contract)

theorem account_plannedCalls :
    (plannedCalls eoas contracts).filterMap MemoryOp.account =
      eoas ++ contracts.map fun c => (c.address,c.account) := by
  have heoas : (eoas.map fun e => MemoryOp.insertAccount e.1 e.2).filterMap MemoryOp.account =
      eoas := by
    rw [List.filterMap_map]
    exact List.filterMap_some
  rw [plannedCalls,List.filterMap_append,heoas,List.filterMap_flatMap,List.map_eq_flatMap]
  simp only [Contract.account_calls]

theorem slot_plannedCalls :
    (plannedCalls eoas contracts).filterMap MemoryOp.slot =
      contracts.flatMap fun c => c.slots.map fun e => ((c.address,e.1),e.2) := by
  have heoas : (eoas.map fun e => MemoryOp.insertAccount e.1 e.2).filterMap MemoryOp.slot = [] := by
    rw [List.filterMap_map]
    exact List.filterMap_eq_nil_iff.mpr fun _ _ => rfl
  rw [plannedCalls,List.filterMap_append,heoas,List.filterMap_flatMap,List.nil_append]
  simp only [Contract.slot_calls]

end Planned

/-- A state made of externally owned accounts and contracts, the contracts with given numbers of
slots in order. -/
structure HasShape (s : MemoryState Account) (eoas contracts : List B256) (sizes : List ℕ) :
    Prop where
  nodup : (eoas ++ contracts).Nodup
  slots : contracts.map (fun a => (s.iterStorage a).length) = sizes
  mem_accounts : ∀ a, a ∈ s.accounts ↔ a ∈ eoas ∨ a ∈ contracts
  eoaCode : ∀ a ∈ eoas, ∃ x, s.accounts.lookup a = some x ∧ x.bytecodeHash = none
  contractCode : ∀ a ∈ contracts, ∃ x, s.accounts.lookup a = some x ∧ x.bytecodeHash.isSome
  eoaStorage : ∀ a ∈ eoas, a ∉ s.storages
  storages : ∀ a ∈ s.storages, a ∈ contracts
  nonzero : ∀ k v, s.slotAt k = some v → v ≠ 0
  accountCount : s.accountCount = eoas.length+contracts.length
  storageCount : s.storageCount = sizes.sum

section Distinct
variable {api : PostStateApi Account} {eoas : List (B256 × Account)} {contracts : List Contract}

/-- Planned addresses. -/
theorem insertedAddresses_plannedCalls :
    insertedAddresses (plannedCalls eoas contracts) =
      eoas.map Prod.fst ++ contracts.map Contract.address := by
  rw [insertedAddresses,account_plannedCalls,List.map_append,List.map_map]
  rfl

theorem insertedSlots_plannedCalls :
    insertedSlots (plannedCalls eoas contracts) =
      contracts.flatMap fun c => c.slots.map Prod.fst := by
  rw [insertedSlots,slot_plannedCalls,List.map_flatMap]
  simp only [List.map_map]
  rfl

/-- Distinct slot keys are set once each. -/
theorem slotAt_plannedCalls (hs : (insertedSlots (plannedCalls eoas contracts)).Nodup)
    (hne : ∀ c ∈ contracts, ∀ e ∈ c.slots, e.2 ≠ 0) (a : B256) (e : StorageEntry) :
    (MemoryState.run api (plannedCalls eoas contracts)).slotAt (a,e.1) = some e.2 ↔
      ∃ c ∈ contracts, c.address = a ∧ e ∈ c.slots := by
  have hkeys : (((plannedCalls eoas contracts).filterMap MemoryOp.slot).map Prod.fst).Nodup := by
    apply List.Nodup.of_map Prod.snd
    rw [List.map_map]
    exact hs
  rw [MemoryState.slotAt_run,Option.filter_eq_some_iff,latest_eq_some_iff hkeys,slot_plannedCalls,
    decide_eq_true_iff]
  simp only [List.mem_flatMap,List.mem_map,Prod.mk.injEq]
  constructor
  · rintro ⟨⟨c,hc,e',he',⟨ha,hk⟩,hv⟩,-⟩
    exact ⟨c,hc,ha,by rwa [← Prod.ext hk hv]⟩
  · rintro ⟨c,hc,ha,he⟩
    exact ⟨⟨c,hc,e,he,⟨ha,rfl⟩,rfl⟩,hne c hc e he⟩

/-- A contract holds the slots inserted for it. -/
theorem iterStorage_perm (ha : (insertedAddresses (plannedCalls eoas contracts)).Nodup)
    (hs : (insertedSlots (plannedCalls eoas contracts)).Nodup)
    (hne : ∀ c ∈ contracts, ∀ e ∈ c.slots, e.2 ≠ 0) {c : Contract} (hc : c ∈ contracts) :
    ((MemoryState.run api (plannedCalls eoas contracts)).iterStorage c.address).Perm c.slots := by
  have hslots : c.slots.Nodup := by
    rw [insertedSlots_plannedCalls] at hs
    exact List.Nodup.of_map _ ((List.nodup_flatMap.mp hs).1 c hc)
  apply (List.perm_ext_iff_of_nodup (MemoryState.nodup_iterStorage _ _) hslots).mpr
  intro e
  rw [MemoryState.mem_iterStorage,slotAt_plannedCalls hs hne]
  constructor
  · rintro ⟨c',hc',he,hm⟩
    rw [insertedAddresses_plannedCalls] at ha
    rwa [← List.inj_on_of_nodup_map (List.nodup_append.mp ha).2.1 hc' hc he]
  · exact fun he => ⟨c,hc,rfl,he⟩

/-- The state counts the slots inserted. -/
theorem storageCount_plannedCalls (hs : (insertedSlots (plannedCalls eoas contracts)).Nodup)
    (hne : ∀ c ∈ contracts, ∀ e ∈ c.slots, e.2 ≠ 0) :
    (MemoryState.run api (plannedCalls eoas contracts)).storageCount =
      (contracts.map fun c => c.slots.length).sum := by
  let rows := contracts.flatMap fun c => c.slots.map fun e => (c.address,e)
  have hrows : rows.Nodup := by
    apply List.Nodup.of_map fun r => r.2.1
    rw [insertedSlots_plannedCalls] at hs
    rw [List.map_flatMap]
    simp only [List.map_map]
    exact hs
  have hmem : (MemoryState.run api (plannedCalls eoas contracts)).slotRows = rows := by
    apply (Multiset.Nodup.ext (MemoryState.nodup_slotRows _) (Multiset.coe_nodup.mpr hrows)).mpr
    rintro ⟨a,e⟩
    rw [MemoryState.mem_slotRows,slotAt_plannedCalls hs hne,Multiset.mem_coe,List.mem_flatMap]
    simp only [List.mem_map,Prod.mk.injEq]
    constructor
    · rintro ⟨c,hc,ha,he⟩
      exact ⟨c,hc,e,he,ha,rfl⟩
    · rintro ⟨c,hc,e',he,ha,rfl⟩
      exact ⟨c,hc,ha,he⟩
  rw [← MemoryState.card_slotRows,hmem,Multiset.coe_card,List.length_flatMap]
  simp only [List.length_map]

end Distinct

/-- Without collisions the planned calls leave the shape planned. -/
theorem hasShape_of_nodup {api : PostStateApi Account} {eoas : List (B256 × Account)}
    {contracts : List Contract} (ha : (insertedAddresses (plannedCalls eoas contracts)).Nodup)
    (hs : (insertedSlots (plannedCalls eoas contracts)).Nodup)
    (hcode : ∀ e ∈ eoas, e.2.bytecodeHash = none)
    (hcontracts : ∀ c ∈ contracts, c.account.bytecodeHash.isSome ∧ ∀ e ∈ c.slots, e.2 ≠ 0) :
    HasShape (MemoryState.run api (plannedCalls eoas contracts)) (eoas.map Prod.fst)
      (contracts.map Contract.address) (contracts.map fun c => c.slots.length) := by
  have hne : ∀ c ∈ contracts, ∀ e ∈ c.slots, e.2 ≠ 0 := fun c hc => (hcontracts c hc).2
  have hlookup : ∀ a x, (MemoryState.run api (plannedCalls eoas contracts)).accounts.lookup a =
      some x ↔ (a,x) ∈ eoas ∨ ∃ c ∈ contracts, (c.address,c.account) = (a,x) := by
    intro a x
    rw [MemoryState.lookup_accounts_run,latest_eq_some_iff ha,account_plannedCalls,List.mem_append,
      List.mem_map]
  have hstorages : ∀ a ∈ (MemoryState.run api (plannedCalls eoas contracts)).storages,
      a ∈ contracts.map Contract.address := by
    intro a hm
    rw [MemoryState.mem_storages_run,slot_plannedCalls,List.map_flatMap,List.mem_flatMap] at hm
    obtain ⟨c,hc,hm⟩ := hm
    rw [List.map_map,List.mem_map] at hm
    obtain ⟨e,-,rfl⟩ := hm
    exact List.mem_map_of_mem hc
  refine ⟨?_,?_,fun a => ?_,fun a hm => ?_,fun a hm => ?_,fun a hm hst => ?_,hstorages,
    fun k v => MemoryState.slotAt_run_ne_zero api,?_,storageCount_plannedCalls hs hne⟩
  · rwa [← insertedAddresses_plannedCalls]
  · rw [List.map_map]
    exact List.map_congr_left fun c hc => (iterStorage_perm ha hs hne hc).length_eq
  · rw [Finmap.mem_iff]
    simp only [hlookup,List.mem_map,Prod.mk.injEq]
    constructor
    · rintro ⟨x,h | ⟨c,hc,rfl,-⟩⟩
      · exact .inl ⟨(a,x),h,rfl⟩
      · exact .inr ⟨c,hc,rfl⟩
    · rintro (⟨e,he,rfl⟩ | ⟨c,hc,rfl⟩)
      · exact ⟨e.2,.inl he⟩
      · exact ⟨c.account,.inr ⟨c,hc,rfl,rfl⟩⟩
  · obtain ⟨e,he,rfl⟩ := List.mem_map.mp hm
    exact ⟨e.2,(hlookup _ _).mpr (.inl he),hcode e he⟩
  · obtain ⟨c,hc,rfl⟩ := List.mem_map.mp hm
    exact ⟨c.account,(hlookup _ _).mpr (.inr ⟨c,hc,rfl⟩),(hcontracts c hc).1⟩
  · rw [insertedAddresses_plannedCalls] at ha
    exact List.disjoint_of_nodup_append ha hm (hstorages a hst)
  · rw [MemoryState.accountCount_of_nodup api ha,account_plannedCalls,List.length_append,
      List.length_map,List.length_map,List.length_map]

/-- `synthesize` does not panic, and with fewer than 2^64 draws no address and no slot key is drawn
twice and the state has exactly the shape configured: the externally owned accounts, the small
contracts with their drawn sizes, and the large ones. -/
theorem synthesize_shape (config : SynthConfig)
    (h : 1 ≤ config.smallSlotsMax ∨ config.smallContracts = 0) :
    ∃ b small, synthesize config = some b ∧
      small.length = config.smallContracts.toNat ∧
      (∀ n ∈ small, 1 ≤ n ∧ n ≤ config.smallSlotsMax.toNat) ∧
      b.rng.drawn = 6*config.eoas.toNat+config.smallContracts.toNat+
        ((small ++ config.largeContracts.map UInt64.toNat).map fun n => 9+5*n).sum ∧
      (b.rng.drawn < 2^64 →
        (insertedAddresses b.calls).Nodup ∧ (insertedSlots b.calls).Nodup ∧
        b.state.accountCount = config.eoas.toNat+config.smallContracts.toNat+
          config.largeContracts.length ∧
        ∃ eoas contracts, insertedAddresses b.calls = eoas ++ contracts ∧
          eoas.length = config.eoas.toNat ∧
          HasShape b.state eoas contracts (small ++ config.largeContracts.map UInt64.toNat)) := by
  obtain ⟨b,sizes,eoas,contracts,hb,hsizes,hrange,heoas,hcode,hslots,hcontracts,hg⟩ :=
    synthesize_grows config h
  have hcalls : b.calls = plannedCalls eoas contracts := hg.made
  have hdrawn : b.rng.drawn = 6*config.eoas.toNat+config.smallContracts.toNat+
      ((sizes ++ config.largeContracts).map fun s => 9+5*s.toNat).sum := by
    rw [hg.rng]
    rfl
  have hcount : contracts.length = config.smallContracts.toNat+config.largeContracts.length := by
    have hlen := congrArg List.length hslots
    rwa [List.length_map,List.length_map,List.length_append,hsizes] at hlen
  refine ⟨b,sizes.map UInt64.toNat,hb,?_,fun n hn => ?_,?_,fun hlt => ?_⟩
  · rw [List.length_map,hsizes]
  · obtain ⟨s,hs,rfl⟩ := List.mem_map.mp hn
    exact hrange s hs
  · rw [hdrawn,← List.map_append,List.map_map]
    rfl
  · have ha := hg.addresses.nodup (hdrawn ▸ hlt.le)
    have hs := hg.slots.nodup (hdrawn ▸ hlt.le)
    have hstate := hg.state (.standard Account) rfl
    rw [hcalls] at hstate ⊢
    have hshape : HasShape b.state (eoas.map Prod.fst) (contracts.map Contract.address)
        (contracts.map fun c => c.slots.length) := by
      rw [hstate]
      exact hasShape_of_nodup ha hs hcode hcontracts
    refine ⟨ha,hs,?_,_,_,insertedAddresses_plannedCalls,by rw [List.length_map,heoas],?_⟩
    · rw [hshape.accountCount,List.length_map,List.length_map,heoas,hcount,Nat.add_assoc]
    · rwa [hslots,List.map_append] at hshape

/-- A small configuration. -/
def sampleConfig (seed : UInt64) : SynthConfig where
  seed := seed
  eoas := 2
  smallContracts := 1
  smallSlotsMax := 3
  largeContracts := [4,0]

theorem synthesize_shape_sample : ∃ b, synthesize (sampleConfig 1) = some b ∧
    b.state.accountCount = 5 ∧ b.state.storageCount ≤ 7 := by
  obtain ⟨b,small,hb,hlen,hrange,hdrawn,hshape⟩ :=
    synthesize_shape (sampleConfig 1) (.inl (by decide))
  obtain ⟨n,rfl⟩ := List.length_eq_one_iff.mp hlen
  have hn := (hrange n List.mem_cons_self).2
  change n ≤ 3 at hn
  change b.rng.drawn = 6*2+1+((9+5*n)+((9+5*4)+((9+5*0)+0))) at hdrawn
  obtain ⟨-,-,hcount,eoas,contracts,-,-,hs⟩ := hshape (by omega)
  refine ⟨b,hb,hcount,?_⟩
  have hstorage := hs.storageCount
  change b.state.storageCount = n+(4+(0+0)) at hstorage
  omega

end TrieRebuild
