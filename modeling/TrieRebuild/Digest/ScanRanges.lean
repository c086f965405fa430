import TrieRebuild.Trie.Types

/-! The sixteen address ranges of the storage table scan: every 32-byte word lies in exactly one. -/
namespace TrieRebuild

/-- The lower bound of a range: the nibble, then zeros. -/
def rangeLow (nibble : Fin 16) : B256 := B256.rightPaddingFrom (UInt8.ofNat nibble <<< 4)

/-- The upper bound of a range, itself in the range: the nibble, then one bits. -/
def rangeHigh (nibble : Fin 16) : B256 :=
  (B256.repeatByte 0xff).setFirst ((UInt8.ofNat nibble <<< 4) ||| 0xf)

theorem bytes_cons_le_iff (a b : UInt8) (l m : List UInt8) :
    a::l ≤ b::m ↔ a < b ∨ a = b ∧ l ≤ m := by
  rw [le_iff_lt_or_eq,le_iff_lt_or_eq (a := l),List.cons_lt_cons_iff,List.cons.injEq]
  tauto

theorem replicate_zero_le (t : List UInt8) : List.replicate t.length 0 ≤ t := by
  induction t with
  | nil => exact le_rfl
  | cons b t ih =>
    rw [List.length_cons,List.replicate_succ,bytes_cons_le_iff]
    rcases (UInt8.zero_le (a := b)).lt_or_eq with h | h
    · exact .inl h
    · exact .inr ⟨h,ih⟩

theorem le_replicate_max (t : List UInt8) : t ≤ List.replicate t.length 0xff := by
  induction t with
  | nil => exact le_rfl
  | cons b t ih =>
    rw [List.length_cons,List.replicate_succ,bytes_cons_le_iff]
    have hb : b ≤ 0xff := UInt8.le_iff_toNat_le.mpr (by have := b.toNat_lt; simp; omega)
    rcases hb.lt_or_eq with h | h
    · exact .inl h
    · exact .inr ⟨h,ih⟩

theorem rangeLow_le_iff (nibble : Fin 16) (a : B256) :
    rangeLow nibble ≤ a ↔ nibble.val*16 ≤ a.firstByte.toNat := by
  obtain ⟨t,ht,hl⟩ := a.bytes_eq_cons
  have hbyte : (UInt8.ofNat nibble <<< 4).toNat = nibble.val*16 := by
    revert nibble; decide
  have htail : List.replicate 31 (0 : UInt8) ≤ t := hl ▸ replicate_zero_le t
  have hlow : (rangeLow nibble).bytes = (UInt8.ofNat nibble <<< 4)::List.replicate 31 0 := rfl
  rw [B256.le_iff,ht,hlow,bytes_cons_le_iff,← hbyte,← UInt8.le_iff_toNat_le]
  constructor
  · rintro (h | h)
    · exact h.le
    · exact h.1.le
  · intro h
    exact h.lt_or_eq.imp_right fun he => ⟨he,htail⟩

theorem le_rangeHigh_iff (nibble : Fin 16) (a : B256) :
    a ≤ rangeHigh nibble ↔ a.firstByte.toNat ≤ nibble.val*16+15 := by
  obtain ⟨t,ht,hl⟩ := a.bytes_eq_cons
  have hbyte : ((UInt8.ofNat nibble <<< 4) ||| 0xf).toNat = nibble.val*16+15 := by
    revert nibble; decide
  have htail : t ≤ List.replicate 31 (0xff : UInt8) := hl ▸ le_replicate_max t
  have hhigh : (rangeHigh nibble).bytes =
      ((UInt8.ofNat nibble <<< 4) ||| 0xf)::List.replicate 31 0xff := rfl
  rw [B256.le_iff,ht,hhigh,bytes_cons_le_iff,← hbyte,← UInt8.le_iff_toNat_le]
  constructor
  · rintro (h | h)
    · exact h.le
    · exact h.1.le
  · intro h
    exact h.lt_or_eq.imp_right fun he => ⟨he,htail⟩

/-- A word lies in the range of its first nibble and in no other. -/
theorem mem_range_iff (nibble : Fin 16) (a : B256) :
    rangeLow nibble ≤ a ∧ a ≤ rangeHigh nibble ↔ firstNibble a = nibble := by
  rw [rangeLow_le_iff,le_rangeHigh_iff,Fin.ext_iff,firstNibble]
  dsimp only
  omega

end TrieRebuild
