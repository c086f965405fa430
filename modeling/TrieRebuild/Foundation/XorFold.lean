import Mathlib

/-! Folding 64-bit hashes with exclusive or. The fold ignores order, cancels pairs, and under
arbitrary hash functions remembers exactly the parity of each multiplicity. -/
namespace TrieRebuild.Foundation
variable {α : Type*}

/-- The running fold of a stream, started from zero. -/
def xorAll (h : α → UInt64) (l : List α) : UInt64 := l.foldl (fun acc a => acc ^^^ h a) 0

theorem foldl_xor (h : α → UInt64) (l : List α) (w : UInt64) :
    l.foldl (fun acc a => acc ^^^ h a) w = w ^^^ xorAll h l := by
  induction l generalizing w with
  | nil => simp [xorAll]
  | cons a l ih =>
    rw [xorAll,List.foldl_cons,List.foldl_cons,ih,ih,UInt64.zero_xor,UInt64.xor_assoc]

@[simp] theorem xorAll_nil (h : α → UInt64) : xorAll h [] = 0 := rfl

theorem xorAll_cons (h : α → UInt64) (a : α) (l : List α) :
    xorAll h (a::l) = h a ^^^ xorAll h l := by
  rw [xorAll,List.foldl_cons,foldl_xor,UInt64.zero_xor]

theorem xorAll_append (h : α → UInt64) (l m : List α) :
    xorAll h (l ++ m) = xorAll h l ^^^ xorAll h m := by
  rw [xorAll,List.foldl_append,foldl_xor]
  rfl

theorem xorAll_map {β : Type*} (h : β → UInt64) (f : α → β) (l : List α) :
    xorAll h (l.map f) = xorAll (h ∘ f) l := by
  rw [xorAll,List.foldl_map]
  rfl

theorem xorAll_perm (h : α → UInt64) {l m : List α} (hp : l.Perm m) : xorAll h l = xorAll h m := by
  induction hp with
  | nil => rfl
  | cons a _ ih => rw [xorAll_cons,xorAll_cons,ih]
  | swap a b l =>
    simp only [xorAll_cons]
    rw [← UInt64.xor_assoc,← UInt64.xor_assoc,UInt64.xor_comm (h b)]
  | trans _ _ ih₁ ih₂ => exact ih₁.trans ih₂

variable [DecidableEq α]

/-- Hashing one element to one and all others to zero, the fold is that element's parity. -/
theorem xorAll_indicator (x : α) (l : List α) :
    xorAll (fun a => if a = x then 1 else 0) l = if l.count x % 2 = 1 then 1 else 0 := by
  induction l with
  | nil => simp
  | cons a l ih =>
    rw [xorAll_cons,ih]
    by_cases ha : a = x
    · subst ha
      rw [List.count_cons_self]
      rcases Nat.mod_two_eq_zero_or_one (l.count a) with hc | hc
      · have hs : (l.count a+1) % 2 = 1 := by omega
        simp [hc,hs]
      · have hs : (l.count a+1) % 2 = 0 := by omega
        simp [hc,hs]
    · simp [List.count_cons_of_ne ha,ha]

/-- Elements of even multiplicity cancel. -/
theorem xorAll_eq_zero (h : α → UInt64) (l : List α) (he : ∀ x, l.count x % 2 = 0) :
    xorAll h l = 0 := by
  induction hn : l.length using Nat.strongRecOn generalizing l with
  | ind n ih =>
    cases l with
    | nil => rfl
    | cons a l =>
      -- the head has a partner, and removing the pair keeps every multiplicity even
      have ha := he a
      rw [List.count_cons_self] at ha
      have hm : a ∈ l := List.count_pos_iff.mp (by omega)
      have hp := List.perm_cons_erase hm
      have hr := ih (l.erase a).length (by
        have hl := List.length_erase_of_mem hm
        simp only [List.length_cons] at hn
        omega) (l.erase a) (fun x => by
          have hx := he x
          have hcount := hp.count_eq x
          by_cases hax : a = x
          · subst hax
            rw [List.count_cons_self] at hx hcount
            omega
          · rw [List.count_cons_of_ne hax] at hx hcount
            omega) rfl
      rw [xorAll_cons,xorAll_perm h hp,xorAll_cons,hr,UInt64.xor_zero,UInt64.xor_self]

/-- Two streams fold alike under every hash exactly when all multiplicities have the same parity. -/
theorem xorAll_eq_iff (l m : List α) :
    (∀ h, xorAll h l = xorAll h m) ↔ ∀ x, l.count x % 2 = m.count x % 2 := by
  constructor
  · intro h x
    have hx := h fun a => if a = x then 1 else 0
    rw [xorAll_indicator,xorAll_indicator] at hx
    rcases Nat.mod_two_eq_zero_or_one (l.count x) with hl | hl <;>
      rcases Nat.mod_two_eq_zero_or_one (m.count x) with hm | hm <;> simp [hl,hm] at hx ⊢
  · intro hc h
    have hz := xorAll_eq_zero h (l ++ m) (fun x => by
      have hx := hc x
      rw [List.count_append]
      omega)
    rw [xorAll_append] at hz
    exact UInt64.xor_eq_zero_iff.mp hz

/-- The same through an injective encoding, the hash functions being functions of the code. -/
theorem xorAll_map_eq_iff {β : Type*} {f : α → β} (hf : Function.Injective f) (l m : List α) :
    (∀ h, xorAll h (l.map f) = xorAll h (m.map f)) ↔ ∀ x, l.count x % 2 = m.count x % 2 := by
  rw [← xorAll_eq_iff]
  constructor
  · intro h g
    have hg := h (Function.extend f g 0)
    rw [xorAll_map,xorAll_map] at hg
    have he : Function.extend f g 0 ∘ f = g := by
      funext a
      exact hf.extend_apply g 0 a
    rwa [he] at hg
  · intro h g
    rw [xorAll_map,xorAll_map]
    exact h _

end TrieRebuild.Foundation
