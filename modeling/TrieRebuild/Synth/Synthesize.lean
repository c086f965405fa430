import TrieRebuild.Memory.MemoryState
import TrieRebuild.Synth.Rng

/-! `synthesize`: a seeded state with a given shape. -/
namespace TrieRebuild
open Foundation

/-- An account as hashed state holds it. -/
structure Account where
  nonce : UInt64
  balance : U256
  bytecodeHash : Option B256

/-- Shape of a synthetic state. -/
structure SynthConfig where
  seed : UInt64
  eoas : Usize
  smallContracts : Usize
  smallSlotsMax : Usize
  largeContracts : List Usize

/-- The generator and the state under construction. `calls` records the insertions made. -/
structure Synth where
  rng : Rng
  state : MemoryState Account := {}
  calls : List (MemoryOp Account) := []

namespace Synth

def insertAccount (b : Synth) (hashedAddress : B256) (account : Account) : Synth :=
  { b with
    state := b.state.insertAccount hashedAddress account
    calls := b.calls ++ [.insertAccount hashedAddress account] }

def insertStorage (b : Synth) (hashedAddress hashedSlot : B256) (value : U256) : Synth :=
  { b with
    state := b.state.insertStorage hashedAddress hashedSlot value
    calls := b.calls ++ [.insertStorage hashedAddress hashedSlot value] }

/-- One externally owned account: its address, then its nonce and its balance. -/
def addEoa (b : Synth) : Option Synth := do
  let (hashedAddress,rng) := b.rng.nextB256
  let (nonce,rng) ← rng.below 50
  let (balance,rng) := rng.nextU64
  return { b with rng }.insertAccount hashedAddress ⟨nonce,BitVec.ofNat 256 balance.toNat,none⟩

/-- One slot of a contract: its value, then its key. -/
def addSlot (hashedAddress : B256) (b : Synth) : Option Synth := do
  let (value,rng) ← b.rng.below 4294967295
  let (hashedSlot,rng) := rng.nextB256
  return { b with rng }.insertStorage hashedAddress hashedSlot (BitVec.ofNat 256 (1+value).toNat)

/-- Repeats a step that may panic. -/
def times (step : Synth → Option Synth) : ℕ → Synth → Option Synth
  | 0,b => some b
  | k+1,b => step b >>= times step k

/-- One contract: its address, its balance and code hash, then its slots. -/
def addContract (b : Synth) (slots : Usize) : Option Synth := do
  let (hashedAddress,rng) := b.rng.nextB256
  let (balance,rng) ← rng.below 1000000
  let (codeHash,rng) := rng.nextB256
  let b := { b with rng }.insertAccount hashedAddress
    ⟨1,BitVec.ofNat 256 balance.toNat,some codeHash⟩
  times (addSlot hashedAddress) slots.toNat b

end Synth

/-- The sizes of the small contracts. -/
def smallSizes (smallSlotsMax : Usize) : ℕ → Rng → Option (List Usize × Rng)
  | 0,rng => some ([],rng)
  | k+1,rng => do
    let (size,rng) ← rng.below smallSlotsMax
    let (sizes,rng) ← smallSizes smallSlotsMax k rng
    return ((1+size)::sizes,rng)

/-- The state of a configuration; none if it panics. -/
def synthesize (config : SynthConfig) : Option Synth := do
  let b ← Synth.times Synth.addEoa config.eoas.toNat { rng := { state := config.seed } }
  let (sizes,rng) ← smallSizes config.smallSlotsMax config.smallContracts.toNat b.rng
  (sizes ++ config.largeContracts).foldlM Synth.addContract { b with rng }

end TrieRebuild
