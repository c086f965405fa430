import Mathlib.Data.Nat.ModEq
import Mathlib.Tactic

/-! Invertible operations on 64-bit words, the building blocks of mixing functions: exclusive or
with a right shift, multiplication by an odd constant, and the bytes of a word. -/
namespace TrieRebuild.Foundation

/-- A word that is its own right shift is zero, so xor-shifts lose nothing. -/
theorem xorShift_injective {k : UInt64} (hk : 0 < k.toNat % 64) :
    Function.Injective fun z : UInt64 => z ^^^ (z >>> k) := by
  intro a b h
  have hself : (a ^^^ b) >>> k = a ^^^ b := by
    rw [UInt64.shiftRight_xor,← UInt64.xor_eq_zero_iff]
    have hz : (a ^^^ (a >>> k)) ^^^ (b ^^^ (b >>> k)) = 0 := UInt64.xor_eq_zero_iff.mpr h
    rw [← hz]
    ac_rfl
  have hnat := congrArg UInt64.toNat hself
  rw [UInt64.toNat_shiftRight,Nat.shiftRight_eq_div_pow] at hnat
  apply UInt64.xor_eq_zero_iff.mp
  apply UInt64.toNat_inj.mp
  by_contra hne
  have hlt := Nat.div_lt_self (Nat.pos_of_ne_zero hne) (Nat.one_lt_two_pow hk.ne')
  omega

/-- Multiplication by a word with an inverse. -/
theorem mul_right_injective_of_inverse (c inverse : UInt64) (h : c*inverse = 1) :
    Function.Injective fun z : UInt64 => z*c := by
  intro a b hab
  have hm := congrArg (· * inverse) hab
  simpa only [UInt64.mul_assoc,h,UInt64.mul_one] using hm

theorem toNat_max (a b : UInt64) : (max a b).toNat = max a.toNat b.toNat := by
  have hmax : max a b = if a ≤ b then b else a := rfl
  rw [hmax,Nat.max_def]
  simp only [UInt64.le_iff_toNat_le]
  split <;> rfl

/-- A remainder has room for one more. -/
theorem toNat_one_add_mod (w : UInt64) {n : UInt64} (hn : 0 < n.toNat) :
    (1+w % n).toNat = 1+w.toNat % n.toNat := by
  have hmod := Nat.mod_lt w.toNat hn
  have hlt := n.toNat_lt
  rw [UInt64.toNat_add,UInt64.toNat_mod]
  exact Nat.mod_eq_of_lt (show 1+w.toNat % n.toNat < 2^64 by omega)

/-- Numbers below a power of the base are told apart by their digits. -/
theorem mod_pow_eq_of_digits {b m n k : ℕ} (h : ∀ i < k, m/b^i%b = n/b^i%b) :
    m % b^k = n % b^k := by
  induction k with
  | zero => simp [Nat.mod_one]
  | succ k ih =>
    rw [Nat.mod_pow_succ,Nat.mod_pow_succ,ih fun i hi => h i (by omega),h k (by omega)]

/-- `to_le_bytes`: the bytes of a word, the lowest first. -/
def toLeBytes (w : UInt64) : List UInt8 :=
  (List.range 8).map fun i => UInt8.ofNat (w.toNat/256^i)

@[simp] theorem length_toLeBytes (w : UInt64) : (toLeBytes w).length = 8 := by
  simp [toLeBytes]

theorem toLeBytes_injective : Function.Injective toLeBytes := by
  intro v w h
  have hdigits : ∀ i < 8, v.toNat/256^i%256 = w.toNat/256^i%256 := by
    intro i hi
    have hb := List.map_inj_left.mp h i (List.mem_range.mpr hi)
    simpa using congrArg UInt8.toNat hb
  have hmod := mod_pow_eq_of_digits hdigits
  rw [Nat.mod_eq_of_lt (lt_of_lt_of_eq v.toNat_lt (by norm_num)),
    Nat.mod_eq_of_lt (lt_of_lt_of_eq w.toNat_lt (by norm_num))] at hmod
  exact UInt64.toNat_inj.mp hmod

end TrieRebuild.Foundation
