import TrieRebuild.Synth.Synthesize

/-! Runs of `synthesize`: the insertions each part of it makes, and where in the seed's stream it
draws their keys. -/
namespace TrieRebuild
open Foundation

/-- Words drawn at increasing positions of a part of a seed's stream. -/
def DrawnIn (seed : UInt64) (k k' : ℕ) (words : List B256) : Prop :=
  ∃ positions : List ℕ, words = positions.map (b256At seed) ∧ positions.Pairwise (· < ·) ∧
    ∀ i ∈ positions, k ≤ i ∧ i < k'

namespace DrawnIn
variable {seed : UInt64} {k m k' : ℕ} {xs ys : List B256}

theorem nil : DrawnIn seed k k' [] := ⟨[],rfl,.nil,by simp⟩

theorem single {i : ℕ} (hk : k ≤ i) (hi : i < k') : DrawnIn seed k k' [b256At seed i] :=
  ⟨[i],rfl,List.pairwise_singleton _ _,by simp [hk,hi]⟩

theorem append (hx : DrawnIn seed k m xs) (hy : DrawnIn seed m k' ys) (hk : k ≤ m) (hm : m ≤ k') :
    DrawnIn seed k k' (xs ++ ys) := by
  obtain ⟨is,rfl,his,hbi⟩ := hx
  obtain ⟨js,rfl,hjs,hbj⟩ := hy
  refine ⟨is ++ js,by rw [List.map_append],List.pairwise_append.mpr ⟨his,hjs,?_⟩,?_⟩
  · intro i hi j hj
    have hil := (hbi i hi).2
    have hjl := (hbj j hj).1
    omega
  · intro i hi
    rcases List.mem_append.mp hi with hi | hi
    · have := hbi i hi
      omega
    · have := hbj i hi
      omega

/-- Within 2^64 draws no word repeats. -/
theorem nodup (h : DrawnIn seed k k' xs) (hk : k' ≤ 2^64) : xs.Nodup := by
  obtain ⟨is,rfl,his,hb⟩ := h
  apply List.Nodup.map_on _ (his.imp fun hlt => hlt.ne)
  intro i hi j hj he
  have hbi := hb i hi
  have hbj := hb j hj
  exact b256At_inj (by omega) (by omega) he

end DrawnIn

/-- The addresses under which some calls insert accounts. -/
def insertedAddresses (calls : List (MemoryOp Account)) : List B256 :=
  (calls.filterMap MemoryOp.account).map Prod.fst

/-- The slot keys some calls set. -/
def insertedSlots (calls : List (MemoryOp Account)) : List B256 :=
  (calls.filterMap MemoryOp.slot).map fun e => e.1.2

theorem insertedAddresses_append (c d : List (MemoryOp Account)) :
    insertedAddresses (c ++ d) = insertedAddresses c ++ insertedAddresses d := by
  simp [insertedAddresses]

theorem insertedSlots_append (c d : List (MemoryOp Account)) :
    insertedSlots (c ++ d) = insertedSlots c ++ insertedSlots d := by
  simp [insertedSlots]

/-- A part of the construction: the calls it makes, with keys drawn in its part of the stream. -/
structure Grows (seed : UInt64) (k k' : ℕ) (b b' : Synth) (calls : List (MemoryOp Account)) :
    Prop where
  le : k ≤ k'
  rng : b'.rng = .After seed k'
  made : b'.calls = b.calls ++ calls
  state : ∀ api, b.state = MemoryState.run api b.calls → b'.state = MemoryState.run api b'.calls
  addresses : DrawnIn seed k k' (insertedAddresses calls)
  slots : DrawnIn seed k k' (insertedSlots calls)

namespace Grows
variable {seed : UInt64} {k m k' : ℕ} {b b₁ b' : Synth} {c d : List (MemoryOp Account)}

theorem refl (h : b.rng = .After seed k) : Grows seed k k b b [] where
  le := le_rfl
  rng := h
  made := (List.append_nil _).symm
  state _ h := h
  addresses := .nil
  slots := .nil

theorem trans (h : Grows seed k m b b₁ c) (h' : Grows seed m k' b₁ b' d) :
    Grows seed k k' b b' (c ++ d) where
  le := h.le.trans h'.le
  rng := h'.rng
  made := by rw [h'.made,h.made,List.append_assoc]
  state api hb := h'.state api (h.state api hb)
  addresses := by
    rw [insertedAddresses_append]
    exact h.addresses.append h'.addresses h.le h'.le
  slots := by
    rw [insertedSlots_append]
    exact h.slots.append h'.slots h.le h'.le

/-- Inserting an account under an address drawn since. -/
theorem insertAccount (i : ℕ) (account : Account) (hk : k ≤ i) (hi : i < k') :
    Grows seed k k' b ({ b with rng := .After seed k' }.insertAccount (b256At seed i) account)
      [.insertAccount (b256At seed i) account] where
  le := by omega
  rng := rfl
  made := rfl
  state api hb := by
    change b.state.insertAccount _ _ = MemoryState.run api (b.calls ++ _)
    rw [MemoryState.run_concat,← hb]
    rfl
  addresses := .single hk hi
  slots := .nil

/-- Setting a slot under a key drawn since. -/
theorem insertStorage (a : B256) (i : ℕ) (value : U256) (hk : k ≤ i) (hi : i < k') :
    Grows seed k k' b ({ b with rng := .After seed k' }.insertStorage a (b256At seed i) value)
      [.insertStorage a (b256At seed i) value] where
  le := by omega
  rng := rfl
  made := rfl
  state api hb := by
    change b.state.insertStorage _ _ _ = MemoryState.run api (b.calls ++ _)
    rw [MemoryState.run_concat,← hb]
    rfl
  addresses := .nil
  slots := .single hk hi

end Grows

/-- A contract as it is inserted. -/
structure Contract where
  address : B256
  account : Account
  slots : List StorageEntry

def Contract.calls (c : Contract) : List (MemoryOp Account) :=
  .insertAccount c.address c.account::c.slots.map fun e => .insertStorage c.address e.1 e.2

namespace Synth
variable {seed : UInt64} {k : ℕ} {b : Synth}

theorem addEoa_grows (h : b.rng = .After seed k) :
    ∃ b', ∃ e : B256 × Account, addEoa b = some b' ∧
      Grows seed k (k+6) b b' [.insertAccount e.1 e.2] ∧ e.2.bytecodeHash = none := by
  let account : Account := ⟨wordAt seed (k+4) % 50,BitVec.ofNat 256 (wordAt seed (k+5)).toNat,none⟩
  refine ⟨_,(b256At seed k,account),?_,.insertAccount k account le_rfl (by omega),rfl⟩
  rw [addEoa,h,Rng.nextB256_after]
  dsimp only
  rw [Rng.below_after _ _ (by decide)]
  simp only [Option.bind_eq_bind,Option.bind_some,Rng.nextU64_after]
  rfl

/-- The value of a slot is never zero. -/
theorem slotValue_ne_zero (w : UInt64) :
    BitVec.ofNat 256 (1+w % 4294967295).toNat ≠ 0 := by
  intro h
  have hnat := congrArg BitVec.toNat h
  have hone : (1+w % 4294967295).toNat = 1+w.toNat % 4294967295 := toNat_one_add_mod w (by decide)
  have hlt := Nat.mod_lt w.toNat (show 0 < 4294967295 by decide)
  rw [hone,BitVec.toNat_ofNat,Nat.mod_eq_of_lt (by omega)] at hnat
  simp at hnat

theorem addSlot_grows (a : B256) (h : b.rng = .After seed k) :
    ∃ b', ∃ e : StorageEntry, addSlot a b = some b' ∧
      Grows seed k (k+5) b b' [.insertStorage a e.1 e.2] ∧ e.2 ≠ 0 := by
  refine ⟨_,(b256At seed (k+1),BitVec.ofNat 256 (1+wordAt seed k % 4294967295).toNat),?_,
    .insertStorage a (k+1) _ (by omega) (by omega),slotValue_ne_zero _⟩
  rw [addSlot,h,Rng.below_after _ _ (by decide)]
  simp only [Option.bind_eq_bind,Option.bind_some,Rng.nextB256_after]
  rfl

/-- A repeated step inserts as many entries as it is repeated. -/
theorem times_grows {E : Type} {step : Synth → Option Synth} (call : E → MemoryOp Account)
    {Q : E → Prop} {cost : ℕ}
    (hstep : ∀ b k, b.rng = .After seed k → ∃ b' e, step b = some b' ∧
      Grows seed k (k+cost) b b' [call e] ∧ Q e)
    (n : ℕ) (h : b.rng = .After seed k) :
    ∃ b', ∃ es : List E, times step n b = some b' ∧ Grows seed k (k+cost*n) b b' (es.map call) ∧
      es.length = n ∧ ∀ e ∈ es, Q e := by
  induction n generalizing b k with
  | zero => exact ⟨b,[],rfl,.refl h,rfl,by simp⟩
  | succ n ih =>
    obtain ⟨b₁,e,he,hg,hq⟩ := hstep b k h
    obtain ⟨b₂,es,hes,hgs,hlen,hqs⟩ := ih hg.rng
    refine ⟨b₂,e::es,?_,?_,by rw [List.length_cons,hlen],?_⟩
    · rw [times,he]
      exact hes
    · have hcost : k+cost+cost*n = k+cost*(n+1) := by
        rw [Nat.mul_succ]
        omega
      rw [← hcost]
      exact hg.trans hgs
    · exact List.forall_mem_cons.mpr ⟨hq,hqs⟩

theorem addContract_grows (slots : Usize) (h : b.rng = .After seed k) :
    ∃ b', ∃ c : Contract, addContract b slots = some b' ∧
      Grows seed k (k+(9+5*slots.toNat)) b b' c.calls ∧ c.slots.length = slots.toNat ∧
      c.account.bytecodeHash.isSome ∧ ∀ e ∈ c.slots, e.2 ≠ 0 := by
  let account : Account := ⟨1,BitVec.ofNat 256 (wordAt seed (k+4) % 1000000).toNat,
    some (b256At seed (k+5))⟩
  have hg : Grows seed k (k+9) b
      ({ b with rng := .After seed (k+9) }.insertAccount (b256At seed k) account)
      [.insertAccount (b256At seed k) account] := .insertAccount k _ le_rfl (by omega)
  obtain ⟨b',es,hes,hgs,hlen,hq⟩ := times_grows
    (fun e : StorageEntry => .insertStorage (b256At seed k) e.1 e.2)
    (fun b m => addSlot_grows (b256At seed k)) slots.toNat hg.rng
  refine ⟨b',⟨b256At seed k,account,es⟩,?_,?_,hlen,rfl,hq⟩
  · rw [addContract,h,Rng.nextB256_after]
    dsimp only
    rw [Rng.below_after _ _ (by decide)]
    simp only [Option.bind_eq_bind,Option.bind_some,Rng.nextB256_after]
    exact hes
  · rw [← Nat.add_assoc]
    exact hg.trans hgs

/-- The contracts of a list of sizes. -/
theorem addContracts_grow (sizes : List Usize) (h : b.rng = .After seed k) :
    ∃ b', ∃ cs : List Contract, sizes.foldlM addContract b = some b' ∧
      Grows seed k (k+(sizes.map fun s => 9+5*s.toNat).sum) b b' (cs.flatMap Contract.calls) ∧
      cs.map (fun c => c.slots.length) = sizes.map UInt64.toNat ∧
      ∀ c ∈ cs, c.account.bytecodeHash.isSome ∧ ∀ e ∈ c.slots, e.2 ≠ 0 := by
  induction sizes generalizing b k with
  | nil => exact ⟨b,[],rfl,.refl h,rfl,by simp⟩
  | cons s sizes ih =>
    obtain ⟨b₁,c,hc,hg,hlen,hcode,hne⟩ := addContract_grows s h
    obtain ⟨b₂,cs,hcs,hgs,hlens,hall⟩ := ih hg.rng
    refine ⟨b₂,c::cs,?_,?_,?_,?_⟩
    · rw [List.foldlM_cons,hc]
      exact hcs
    · rw [List.map_cons,List.sum_cons,← Nat.add_assoc]
      exact hg.trans hgs
    · rw [List.map_cons,List.map_cons,hlen,hlens]
    · exact List.forall_mem_cons.mpr ⟨⟨hcode,hne⟩,hall⟩

end Synth

/-- The sizes drawn for the small contracts are in their range. -/
theorem smallSizes_after (seed : UInt64) {smallSlotsMax : Usize} (n k : ℕ)
    (h : 1 ≤ smallSlotsMax ∨ n = 0) :
    ∃ sizes, smallSizes smallSlotsMax n (.After seed k) = some (sizes,.After seed (k+n)) ∧
      sizes.length = n ∧ ∀ s ∈ sizes, 1 ≤ s.toNat ∧ s.toNat ≤ smallSlotsMax.toNat := by
  induction n generalizing k with
  | zero => exact ⟨[],rfl,rfl,by simp⟩
  | succ n ih =>
    have hmax : 1 ≤ smallSlotsMax := h.resolve_right (Nat.succ_ne_zero n)
    have hpos : 1 ≤ smallSlotsMax.toNat := UInt64.le_iff_toNat_le.mp hmax
    have hne : smallSlotsMax ≠ 0 := by
      rintro rfl
      exact absurd hpos (by decide)
    obtain ⟨sizes,hs,hlen,hall⟩ := ih (k+1) (.inl hmax)
    have hone := toNat_one_add_mod (wordAt seed k) hpos
    have hlt := Nat.mod_lt (wordAt seed k).toNat hpos
    refine ⟨(1+wordAt seed k % smallSlotsMax)::sizes,?_,by rw [List.length_cons,hlen],?_⟩
    · rw [smallSizes,Rng.below_after _ _ hne]
      simp only [Option.bind_eq_bind,Option.bind_some,hs]
      rw [Nat.add_right_comm,Nat.add_assoc]
      rfl
    · exact List.forall_mem_cons.mpr ⟨by omega,hall⟩

/-- What `synthesize` inserts: the externally owned accounts, then the contracts. -/
theorem synthesize_grows (config : SynthConfig)
    (h : 1 ≤ config.smallSlotsMax ∨ config.smallContracts = 0) :
    ∃ b sizes, ∃ eoas : List (B256 × Account), ∃ contracts : List Contract,
      synthesize config = some b ∧
      sizes.length = config.smallContracts.toNat ∧
      (∀ s ∈ sizes, 1 ≤ s.toNat ∧ s.toNat ≤ config.smallSlotsMax.toNat) ∧
      eoas.length = config.eoas.toNat ∧ (∀ e ∈ eoas, e.2.bytecodeHash = none) ∧
      contracts.map (fun c => c.slots.length) =
        (sizes ++ config.largeContracts).map UInt64.toNat ∧
      (∀ c ∈ contracts, c.account.bytecodeHash.isSome ∧ ∀ e ∈ c.slots, e.2 ≠ 0) ∧
      Grows config.seed 0 (6*config.eoas.toNat+config.smallContracts.toNat+
          ((sizes ++ config.largeContracts).map fun s => 9+5*s.toNat).sum)
        { rng := { state := config.seed } } b
        (eoas.map (fun e => .insertAccount e.1 e.2) ++ contracts.flatMap Contract.calls) := by
  have hsmall : 1 ≤ config.smallSlotsMax ∨ config.smallContracts.toNat = 0 :=
    h.imp_right fun h0 => by rw [h0]; rfl
  obtain ⟨b₁,eoas,he,hge,hlen,hcode⟩ := Synth.times_grows
    (fun e : B256 × Account => .insertAccount e.1 e.2)
    (fun b k (hb : b.rng = .After config.seed k) => Synth.addEoa_grows hb) config.eoas.toNat
    (b := { rng := { state := config.seed } }) (k := 0) (Rng.after_zero config.seed).symm
  obtain ⟨sizes,hs,hslen,hsall⟩ := smallSizes_after config.seed config.smallContracts.toNat
    (0+6*config.eoas.toNat) hsmall
  let b₂ : Synth := { b₁ with
    rng := .After config.seed (0+6*config.eoas.toNat+config.smallContracts.toNat) }
  obtain ⟨b₃,contracts,hc,hgc,hclen,hcall⟩ := Synth.addContracts_grow
    (sizes ++ config.largeContracts) (b := b₂) rfl
  have hskip : Grows config.seed (0+6*config.eoas.toNat)
      (0+6*config.eoas.toNat+config.smallContracts.toNat) b₁ b₂ [] :=
    ⟨by omega,rfl,(List.append_nil _).symm,fun _ hb => hb,.nil,.nil⟩
  refine ⟨b₃,sizes,eoas,contracts,?_,hslen,hsall,hlen,hcode,hclen,hcall,?_⟩
  · rw [synthesize,he]
    simp only [Option.bind_eq_bind,Option.bind_some,hge.rng,hs]
    exact hc
  · have hg := (hge.trans hskip).trans hgc
    rw [Nat.zero_add,List.append_nil] at hg
    exact hg

end TrieRebuild
