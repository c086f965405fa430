import Mathlib

/-! Cutting a stream into chunks of a fixed size as it arrives. -/
namespace TrieRebuild.Foundation
variable {α : Type*}

/-- The `k`-th piece of `c` elements; the last one may be short. -/
def chunkAt (c : ℕ) (xs : List α) (k : ℕ) : List α := (xs.drop (k*c)).take c

/-- A stream cut into full chunks and an open one that is not yet full. -/
structure Chunked (c : ℕ) (chunks : List (List α)) (tail xs : List α) : Prop where
  flatten : chunks.flatten ++ tail = xs
  full : ∀ chunk ∈ chunks, chunk.length = c
  length_lt : tail.length < c

namespace Chunked
variable {c : ℕ} {chunks : List (List α)} {tail xs : List α}

theorem nil (hc : 0 < c) : Chunked c [] [] ([] : List α) where
  flatten := rfl
  full := by simp
  length_lt := hc

theorem push (h : Chunked c chunks tail xs) (x : α) (hlt : tail.length+1 < c) :
    Chunked c chunks (tail ++ [x]) (xs ++ [x]) where
  flatten := by rw [← h.flatten,List.append_assoc]
  full := h.full
  length_lt := by simpa using hlt

/-- The element that fills the open chunk. -/
theorem close (h : Chunked c chunks tail xs) (x : α) (hfull : c ≤ tail.length+1) :
    Chunked c (chunks ++ [tail ++ [x]]) [] (xs ++ [x]) where
  flatten := by simp [← h.flatten]
  full := by
    intro chunk hm
    rcases List.mem_append.mp hm with hm | hm
    · exact h.full chunk hm
    · obtain rfl := List.mem_singleton.mp hm
      have := h.length_lt
      rw [List.length_append,List.length_singleton]
      omega
  length_lt := by
    have := h.length_lt
    simp only [List.length_nil]
    omega

theorem length_flatten (h : Chunked c chunks tail xs) : chunks.flatten.length = chunks.length*c := by
  have hl : ∀ n ∈ chunks.map List.length, n = c := by
    simpa using h.full
  rw [List.length_flatten,List.eq_replicate_of_mem hl]
  simp

theorem length_eq (h : Chunked c chunks tail xs) : xs.length = chunks.length*c+tail.length := by
  rw [← h.flatten,List.length_append,h.length_flatten]

theorem length_chunks (h : Chunked c chunks tail xs) : chunks.length = xs.length/c := by
  rw [h.length_eq,Nat.add_comm,Nat.add_mul_div_right _ _ (by have := h.length_lt; omega),
    Nat.div_eq_of_lt h.length_lt,Nat.zero_add]

/-- Full chunks, and one more if some elements are left over. -/
theorem ceilDiv (h : Chunked c chunks tail xs) :
    xs.length ⌈/⌉ c = chunks.length+if tail = [] then 0 else 1 := by
  have hlt := h.length_lt
  have hpos : 0 < c := by omega
  rw [Nat.ceilDiv_eq_add_pred_div,h.length_eq]
  have hshift : chunks.length*c+tail.length+c-1 = (tail.length+c-1)+chunks.length*c := by omega
  rw [hshift,Nat.add_mul_div_right _ _ hpos]
  split_ifs with ht
  · subst ht
    rw [List.length_nil,Nat.zero_add,Nat.div_eq_of_lt (by omega)]
    omega
  · have hlen := List.length_pos_iff.mpr ht
    have hone : tail.length+c-1 = (tail.length-1)+1*c := by omega
    rw [hone,Nat.add_mul_div_right _ _ hpos,Nat.div_eq_of_lt (by omega)]
    omega

theorem flatten_eq_take (h : Chunked c chunks tail xs) (ys : List α) :
    (xs ++ ys).take (chunks.length*c) = chunks.flatten := by
  rw [← h.flatten,List.append_assoc,← h.length_flatten,List.take_left]

/-- What lies past the full chunks starts with the open one. -/
theorem chunkAt_length (h : Chunked c chunks tail xs) (ys : List α) :
    chunkAt c (xs ++ ys) chunks.length = (tail ++ ys).take c := by
  rw [chunkAt,← h.flatten,List.append_assoc,← h.length_flatten,List.drop_left]

theorem tail_eq (h : Chunked c chunks tail xs) : chunkAt c xs chunks.length = tail := by
  have ht := h.chunkAt_length []
  rw [List.append_nil,List.append_nil] at ht
  rw [ht,List.take_of_length_le (by have := h.length_lt; omega)]

end Chunked

/-- Pieces that are complete do not change as the stream goes on. -/
theorem chunkAt_append {c k : ℕ} {xs : List α} (h : (k+1)*c ≤ xs.length) (ys : List α) :
    chunkAt c (xs ++ ys) k = chunkAt c xs k := by
  have hk : k*c+c ≤ xs.length := by rwa [Nat.succ_mul] at h
  rw [chunkAt,chunkAt,List.drop_append_of_le_length (by omega),
    List.take_append_of_le_length (by rw [List.length_drop]; omega)]

theorem chunkAt_append_sublist (c k : ℕ) (xs ys : List α) :
    (chunkAt c xs k).Sublist (chunkAt c (xs ++ ys) k) := by
  unfold chunkAt
  rw [List.drop_append,List.take_append]
  exact List.sublist_append_left _ _

/-- The element that completes the `k`-th piece. -/
theorem exists_closing {c k : ℕ} {xs : List α} (hc : 0 < c) (h : (k+1)*c ≤ xs.length) :
    ∃ pre x rest, xs = pre ++ x::rest ∧ pre.length+1 = (k+1)*c ∧ pre.length/c = k := by
  have hk : k*c+c = (k+1)*c := (Nat.succ_mul k c).symm
  have hd : (xs.drop (k*c+(c-1))).length = xs.length-(k*c+(c-1)) := List.length_drop
  cases hdrop : xs.drop (k*c+(c-1)) with
  | nil => rw [hdrop,List.length_nil] at hd; omega
  | cons x rest =>
    have hlen : (xs.take (k*c+(c-1))).length = k*c+(c-1) := by
      rw [List.length_take]
      omega
    refine ⟨_,x,rest,by rw [← hdrop,List.take_append_drop],by omega,?_⟩
    rw [hlen,Nat.add_comm,Nat.add_mul_div_right _ _ hc,Nat.div_eq_of_lt (by omega),Nat.zero_add]

/-- Every piece is part of the stream. -/
theorem chunkAt_sublist (c k : ℕ) (xs : List α) : (chunkAt c xs k).Sublist xs :=
  (List.take_sublist _ _).trans (List.drop_sublist _ _)

/-- One more element extends the piece its position falls into. -/
theorem chunkAt_concat {c : ℕ} (hc : 0 < c) (xs : List α) (x : α) (k : ℕ) :
    chunkAt c (xs ++ [x]) k =
      if xs.length/c = k then chunkAt c xs k ++ [x] else chunkAt c xs k := by
  have hmod := Nat.div_add_mod xs.length c
  have hlt := Nat.mod_lt xs.length hc
  rw [Nat.mul_comm] at hmod
  unfold chunkAt
  split_ifs with hk
  · subst hk
    rw [List.drop_append_of_le_length (by omega),List.take_of_length_le,List.take_of_length_le]
    · rw [List.length_drop]
      omega
    · rw [List.length_append,List.length_drop,List.length_singleton]
      omega
  · rcases Nat.lt_or_gt_of_ne hk with h | h
    · have hkc := Nat.mul_le_mul_right c (show xs.length/c+1 ≤ k by omega)
      rw [Nat.succ_mul] at hkc
      have hlen : (xs ++ [x]).length ≤ k*c := by
        rw [List.length_append,List.length_singleton]
        omega
      rw [List.drop_of_length_le hlen,List.drop_of_length_le (by omega)]
    · have hkc := Nat.mul_le_mul_right c (show k+1 ≤ xs.length/c by omega)
      rw [Nat.succ_mul] at hkc
      rw [List.drop_append_of_le_length (by omega),List.take_append_of_le_length (by
        rw [List.length_drop]; omega)]

theorem map_chunkAt {β : Type*} (f : α → β) (c : ℕ) (xs : List α) (k : ℕ) :
    (chunkAt c xs k).map f = chunkAt c (xs.map f) k := by
  rw [chunkAt,chunkAt,List.map_take,List.map_drop]

/-- A piece repeats an element exactly when two positions that fall into one piece hold it. -/
theorem not_nodup_chunkAt_iff {c : ℕ} (hc : 0 < c) (xs : List α) :
    (∃ k, ¬ (chunkAt c xs k).Nodup) ↔
      ∃ i j x, i < j ∧ i/c = j/c ∧ xs[i]? = some x ∧ xs[j]? = some x := by
  have hget : ∀ k i, i < c → (chunkAt c xs k)[i]? = xs[k*c+i]? := by
    intro k i hi
    rw [chunkAt,List.getElem?_take_of_lt hi,List.getElem?_drop]
  constructor
  · rintro ⟨k,hk⟩
    rw [List.nodup_iff_getElem?_ne_getElem?] at hk
    push Not at hk
    obtain ⟨i,j,hij,hj,he⟩ := hk
    have hjc : j < c := by
      have hlen : (chunkAt c xs k).length ≤ c := List.length_take_le _ _
      omega
    have hx := List.getElem?_eq_getElem hj
    rw [← he] at hx
    refine ⟨k*c+i,k*c+j,_,by omega,?_,(hget k i (by omega)).symm.trans hx,
      (hget k j hjc).symm.trans (he.symm.trans hx)⟩
    rw [Nat.mul_comm,Nat.mul_add_div hc,Nat.mul_add_div hc,Nat.div_eq_of_lt hjc,
      Nat.div_eq_of_lt (show i < c by omega)]
  · rintro ⟨i,j,x,hij,hdiv,hi,hj⟩
    refine ⟨i/c,fun hn => ?_⟩
    rw [List.nodup_iff_getElem?_ne_getElem?] at hn
    have hmi := Nat.div_add_mod i c
    have hmj := Nat.div_add_mod j c
    rw [Nat.mul_comm] at hmi hmj
    rw [← hdiv] at hmj
    have hgi := hget (i/c) (i%c) (Nat.mod_lt _ hc)
    have hgj := hget (i/c) (j%c) (Nat.mod_lt _ hc)
    rw [hmi,hi] at hgi
    rw [hmj,hj] at hgj
    exact hn (i%c) (j%c) (by omega) (List.getElem?_eq_some_iff.mp hgj).1 (hgi.trans hgj.symm)

end TrieRebuild.Foundation
