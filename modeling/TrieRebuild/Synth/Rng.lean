import TrieRebuild.Foundation.Words
import TrieRebuild.Trie.Types

/-! The generator of synthetic states. Its words run through a counter that advances by an odd
constant and is mixed by a bijection, so they only repeat after 2^64 draws. -/
namespace TrieRebuild
open Foundation

/-- `SplitMix64`; `drawn` records the number of words drawn. -/
structure Rng where
  state : UInt64
  drawn : ℕ := 0

/-- The step of the counter. -/
def gamma : UInt64 := 0x9E3779B97F4A7C15

/-- The finalizer of a word. -/
def mix (z : UInt64) : UInt64 :=
  let z := (z ^^^ (z >>> 30))*0xBF58476D1CE4E5B9
  let z := (z ^^^ (z >>> 27))*0x94D049BB133111EB
  z ^^^ (z >>> 31)

namespace Rng

/-- Next 64 random bits. -/
def nextU64 (rng : Rng) : UInt64 × Rng :=
  let state := rng.state+gamma
  (mix state,⟨state,rng.drawn+1⟩)

/-- Uniform 32 random bytes, word by word. -/
def nextB256 (rng : Rng) : B256 × Rng :=
  let (w₀,rng) := rng.nextU64
  let (w₁,rng) := rng.nextU64
  let (w₂,rng) := rng.nextU64
  let (w₃,rng) := rng.nextU64
  (⟨toLeBytes w₀ ++ toLeBytes w₁ ++ toLeBytes w₂ ++ toLeBytes w₃,by simp⟩,rng)

/-- Uniform below a bound; a zero bound panics. -/
def below (rng : Rng) (n : Usize) : Option (Usize × Rng) :=
  if n = 0 then none
  else
    let (w,rng) := rng.nextU64
    some (w % n,rng)

end Rng

theorem mix_injective : Function.Injective mix := by
  have h₁ : Function.Injective fun z : UInt64 => z ^^^ (z >>> 30) := xorShift_injective (by decide)
  have h₂ : Function.Injective fun z : UInt64 => z*0xBF58476D1CE4E5B9 :=
    mul_right_injective_of_inverse _ 0x96DE1B173F119089 (by decide)
  have h₃ : Function.Injective fun z : UInt64 => z ^^^ (z >>> 27) := xorShift_injective (by decide)
  have h₄ : Function.Injective fun z : UInt64 => z*0x94D049BB133111EB :=
    mul_right_injective_of_inverse _ 0x319642B2D24D8EC3 (by decide)
  have h₅ : Function.Injective fun z : UInt64 => z ^^^ (z >>> 31) := xorShift_injective (by decide)
  exact h₅.comp (h₄.comp (h₃.comp (h₂.comp h₁)))

/-- The word at a position of a seed's stream. -/
def wordAt (seed : UInt64) (i : ℕ) : UInt64 := mix (seed+UInt64.ofNat (i+1)*gamma)

/-- The 32 bytes drawn from a position on. -/
def b256At (seed : UInt64) (i : ℕ) : B256 :=
  ⟨toLeBytes (wordAt seed i) ++ toLeBytes (wordAt seed (i+1)) ++ toLeBytes (wordAt seed (i+2)) ++
    toLeBytes (wordAt seed (i+3)),by simp⟩

/-- Words at positions below 2^64 are pairwise distinct. -/
theorem wordAt_inj {seed : UInt64} {i j : ℕ} (hi : i < 2^64) (hj : j < 2^64)
    (h : wordAt seed i = wordAt seed j) : i = j := by
  have hsum := mix_injective h
  rw [UInt64.add_right_inj] at hsum
  have hcount : UInt64.ofNat (i+1) = UInt64.ofNat (j+1) :=
    mul_right_injective_of_inverse gamma 0xF1DE83E19937733D (by decide) hsum
  have hmod := congrArg UInt64.toNat hcount
  rw [UInt64.toNat_ofNat',UInt64.toNat_ofNat'] at hmod
  omega

/-- So are the 32-byte draws, at whatever offsets they start. -/
theorem b256At_inj {seed : UInt64} {i j : ℕ} (hi : i < 2^64) (hj : j < 2^64)
    (h : b256At seed i = b256At seed j) : i = j := by
  have hbytes := congrArg B256.bytes h
  simp only [b256At,List.append_assoc] at hbytes
  have hfirst := (List.append_inj hbytes (by simp)).1
  exact wordAt_inj hi hj (toLeBytes_injective hfirst)

namespace Rng

/-- The generator of a seed after some draws. -/
def After (seed : UInt64) (k : ℕ) : Rng := ⟨seed+UInt64.ofNat k*gamma,k⟩

theorem after_zero (seed : UInt64) : After seed 0 = { state := seed } := by
  simp [After]

theorem nextU64_after (seed : UInt64) (k : ℕ) :
    (After seed k).nextU64 = (wordAt seed k,After seed (k+1)) := by
  have hstate : seed+UInt64.ofNat k*gamma+gamma = seed+UInt64.ofNat (k+1)*gamma := by
    rw [UInt64.ofNat_add,UInt64.add_mul,UInt64.add_assoc]
    rfl
  simp only [nextU64,After,hstate,wordAt]

theorem nextB256_after (seed : UInt64) (k : ℕ) :
    (After seed k).nextB256 = (b256At seed k,After seed (k+4)) := by
  simp only [nextB256,nextU64_after,b256At]

theorem below_after (seed : UInt64) (k : ℕ) {n : Usize} (hn : n ≠ 0) :
    (After seed k).below n = some (wordAt seed k % n,After seed (k+1)) := by
  simp only [below,if_neg hn,nextU64_after]

end Rng
end TrieRebuild
