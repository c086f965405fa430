import Mathlib.Algebra.Order.BigOperators.Group.Finset
import Mathlib.Data.Fintype.BigOperators
import Mathlib.Algebra.BigOperators.Group.Multiset.Basic

/-! Multisets and sums by their parts: a multiset split by the values of a function, a family of
parts of which one changes, and when multisets without repetition are equal. -/
namespace TrieRebuild.Foundation
variable {α β ι M : Type*}

/-- Filtering by each value of a function splits a multiset. -/
theorem sum_filter_eq [Fintype β] [DecidableEq β] (f : α → β) (s : Multiset α) :
    ∑ b, s.filter (fun a => f a = b) = s := by
  induction s using Multiset.induction_on with
  | empty => simp
  | cons a s ih =>
    have hcons : ∀ b, (a ::ₘ s).filter (fun a => f a = b) =
        (if f a = b then {a} else 0)+s.filter fun a => f a = b := by
      intro b
      rw [Multiset.filter_cons]
    rw [Finset.sum_congr rfl fun b _ => hcons b,Finset.sum_add_distrib,ih,
      Finset.sum_ite_eq Finset.univ (f a),if_pos (Finset.mem_univ _)]
    rfl

/-- Changing one part changes the sum by it alone. -/
theorem sum_update_add [Fintype ι] [DecidableEq ι] [AddCommMonoid M] (g : α → M) (f : ι → α)
    (i : ι) (x : α) :
    ∑ n, g (Function.update f i x n)+g (f i) = ∑ n, g (f n)+g x := by
  have herase : ∑ n ∈ Finset.univ.erase i, g (Function.update f i x n) =
      ∑ n ∈ Finset.univ.erase i, g (f n) := by
    apply Finset.sum_congr rfl
    intro n hn
    rw [Function.update_of_ne (Finset.ne_of_mem_erase hn)]
  rw [← Finset.add_sum_erase Finset.univ (fun n => g (Function.update f i x n))
      (Finset.mem_univ i),← Finset.add_sum_erase Finset.univ (fun n => g (f n))
      (Finset.mem_univ i),herase,Function.update_self,add_right_comm,add_comm (g x),add_right_comm]

/-- A slack at one index is a slack of the sum. -/
theorem sum_add_le_sum [Fintype ι] {f g : ι → ℕ} (h : ∀ i, f i ≤ g i) {i : ι} {x : ℕ}
    (hi : f i+x ≤ g i) : ∑ n, f n+x ≤ ∑ n, g n := by
  classical
  have hrest := Finset.sum_le_sum fun n (_ : n ∈ Finset.univ.erase i) => h n
  rw [← Finset.add_sum_erase Finset.univ f (Finset.mem_univ i),
    ← Finset.add_sum_erase Finset.univ g (Finset.mem_univ i)]
  omega

/-- Without repetition, parity of the multiplicities decides. -/
theorem eq_of_parity [DecidableEq α] {s t : Multiset α} (hs : s.Nodup) (ht : t.Nodup)
    (h : ∀ a, s.count a % 2 = t.count a % 2) : s = t := by
  ext a
  have hsa := Multiset.nodup_iff_count_le_one.mp hs a
  have hta := Multiset.nodup_iff_count_le_one.mp ht a
  have ha := h a
  omega

/-- A function that tells the elements of two multisets apart tells the multisets apart. -/
theorem eq_of_map_eq {f : α → β} {s t : Multiset α} (hs : s.Nodup) (ht : t.Nodup)
    (hf : ∀ a ∈ s, ∀ b ∈ t, f a = f b → a = b) (h : s.map f = t.map f) : s = t := by
  apply (Multiset.Nodup.ext hs ht).mpr
  intro a
  constructor
  · intro ha
    have hm : f a ∈ t.map f := h ▸ Multiset.mem_map_of_mem f ha
    obtain ⟨b,hb,he⟩ := Multiset.mem_map.mp hm
    rwa [hf a ha b hb he.symm]
  · intro ha
    have hm : f a ∈ s.map f := h ▸ Multiset.mem_map_of_mem f ha
    obtain ⟨b,hb,he⟩ := Multiset.mem_map.mp hm
    rwa [← hf b hb a ha he]

end TrieRebuild.Foundation
