import Mathlib

/-! Overwriting a keyed store: the last binding of each key in a stream of writes, its overlay
on earlier contents, and patches that may also delete. -/
namespace TrieRebuild.Foundation
variable {K V : Type*}

/-- What an update says about each key: nothing, or the contents it leaves there. -/
abbrev Patch (K V : Type*) := K → Option (Option V)

namespace Patch

def apply (P : Patch K V) (f : K → Option V) : K → Option V := fun k => (P k).getD (f k)

/-- One patch after another; the later one wins where both speak. -/
def andThen (P Q : Patch K V) : Patch K V := fun k => (Q k).or (P k)

/-- A patch states contents outright, so a second application changes nothing. -/
theorem apply_apply (P : Patch K V) (f : K → Option V) : P.apply (P.apply f) = P.apply f := by
  funext k
  cases h : P k <;> simp [apply,h]

theorem apply_andThen (P Q : Patch K V) (f : K → Option V) :
    (P.andThen Q).apply f = Q.apply (P.apply f) := by
  funext k
  cases hq : Q k <;> simp [apply,andThen,hq]

theorem apply_of_eq_none {P : Patch K V} {k : K} (h : P k = none) (f : K → Option V) :
    P.apply f k = f k := by simp [apply,h]

theorem apply_of_eq_some {P : Patch K V} {k : K} {v : Option V} (h : P k = some v)
    (f : K → Option V) : P.apply f k = v := by simp [apply,h]

variable [DecidableEq K]

/-- The patch of a list of writes, performed in order. -/
def ofWrites : List (K × Option V) → Patch K V
  | [] => fun _ => none
  | w::ws => andThen (fun k => if k = w.1 then some w.2 else none) (ofWrites ws)

@[simp] theorem ofWrites_nil (k : K) : ofWrites ([] : List (K × Option V)) k = none := rfl

theorem ofWrites_cons (w : K × Option V) (ws : List (K × Option V)) (k : K) :
    ofWrites (w::ws) k = (ofWrites ws k).or (if k = w.1 then some w.2 else none) := rfl

theorem ofWrites_append (ws vs : List (K × Option V)) :
    ofWrites (ws ++ vs) = (ofWrites ws).andThen (ofWrites vs) := by
  induction ws with
  | nil => funext k; simp [andThen]
  | cons w ws ih =>
    funext k
    rw [List.cons_append,ofWrites_cons,ih]
    simp only [andThen,ofWrites_cons,Option.or_assoc]

theorem ofWrites_eq_none_iff (ws : List (K × Option V)) (k : K) :
    ofWrites ws k = none ↔ k ∉ ws.map Prod.fst := by
  induction ws with
  | nil => simp
  | cons w ws ih =>
    rw [ofWrites_cons,Option.or_eq_none_iff,ih]
    by_cases hk : k = w.1 <;> simp [hk]

/-- With one write a key the patch is just the list. -/
theorem ofWrites_eq_some_iff {ws : List (K × Option V)} (hn : (ws.map Prod.fst).Nodup)
    (k : K) (v : Option V) : ofWrites ws k = some v ↔ (k,v) ∈ ws := by
  induction ws with
  | nil => simp
  | cons w ws ih =>
    obtain ⟨a,b⟩ := w
    simp only [List.map_cons,List.nodup_cons] at hn
    rw [ofWrites_cons]
    by_cases hk : k = a
    · subst hk
      have hnone := (ofWrites_eq_none_iff ws k).mpr hn.1
      have hnot : (k,v) ∉ ws := fun hm => hn.1 (List.mem_map_of_mem hm)
      simp [hnone,hnot,eq_comm]
    · simp [hk,ih hn.2]

end Patch

variable [DecidableEq K]

/-- The value bound last under each key of a stream. -/
def latest : List (K × V) → K → Option V
  | [],_ => none
  | b::bs,k => (latest bs k).or (if k = b.1 then some b.2 else none)

@[simp] theorem latest_nil (k : K) : latest ([] : List (K × V)) k = none := rfl

theorem latest_append (bs cs : List (K × V)) (k : K) :
    latest (bs ++ cs) k = (latest cs k).or (latest bs k) := by
  induction bs with
  | nil => simp
  | cons b bs ih => simp only [List.cons_append,latest,ih,Option.or_assoc]

theorem latest_concat (bs : List (K × V)) (a : K) (v : V) (k : K) :
    latest (bs ++ [(a,v)]) k = if k = a then some v else latest bs k := by
  rw [latest_append]
  by_cases hk : k = a <;> simp [latest,hk]

theorem latest_eq_none_iff (bs : List (K × V)) (k : K) :
    latest bs k = none ↔ k ∉ bs.map Prod.fst := by
  induction bs with
  | nil => simp
  | cons b bs ih =>
    rw [latest,Option.or_eq_none_iff,ih]
    by_cases hk : k = b.1 <;> simp [hk]

theorem mem_of_latest {bs : List (K × V)} {k : K} {v : V} (h : latest bs k = some v) :
    (k,v) ∈ bs := by
  induction bs with
  | nil => simp at h
  | cons b bs ih =>
    obtain ⟨a,w⟩ := b
    rw [latest] at h
    cases ht : latest bs k with
    | some u =>
      rw [ht] at h
      exact List.mem_cons_of_mem _ (ih (by rw [ht]; simpa using h))
    | none =>
      rw [ht] at h
      by_cases hk : k = a
      · subst hk
        simp only [if_true,Option.none_or,Option.some.injEq] at h
        simp [h]
      · simp [hk] at h

theorem latest_eq_some_iff {bs : List (K × V)} (hn : (bs.map Prod.fst).Nodup) (k : K) (v : V) :
    latest bs k = some v ↔ (k,v) ∈ bs := by
  refine ⟨mem_of_latest,fun h => ?_⟩
  cases hl : latest bs k with
  | none => exact absurd (List.mem_map_of_mem h) ((latest_eq_none_iff bs k).mp hl)
  | some w =>
    have he := List.inj_on_of_nodup_map hn (mem_of_latest hl) h rfl
    simpa using he

/-- Of distinct keys the order does not matter. -/
theorem latest_perm {bs cs : List (K × V)} (h : bs.Perm cs) (hn : (bs.map Prod.fst).Nodup) :
    latest bs = latest cs := by
  funext k
  ext v
  rw [latest_eq_some_iff hn,latest_eq_some_iff ((h.map Prod.fst).nodup_iff.mp hn),h.mem_iff]

/-- The last binding of a key, read off the bindings of that key alone. -/
theorem latest_eq_getLast? (bs : List (K × V)) (k : K) :
    latest bs k = ((bs.filter fun b => b.1 = k).getLast?).map Prod.snd := by
  induction bs using List.reverseRecOn with
  | nil => simp
  | append_singleton bs b ih =>
    rw [latest_concat,List.filter_append]
    by_cases hk : b.1 = k
    · simp [hk]
    · simp [hk,Ne.symm hk,ih]

theorem latest_filter (p : K → Bool) (bs : List (K × V)) (k : K) :
    latest (bs.filter fun b => p b.1) k = if p k then latest bs k else none := by
  induction bs using List.reverseRecOn with
  | nil => simp
  | append_singleton bs b ih =>
    rw [List.filter_append,latest_append,latest_append,ih]
    by_cases hb : p b.1 <;> by_cases hk : k = b.1
    · subst hk; simp [latest,hb]
    · simp [latest,hb,hk]
    · subst hk; simp [hb]
    · simp [latest,hb,hk]

/-- Renaming the keys injectively renames the last bindings. -/
theorem latest_map {L : Type*} [DecidableEq L] {f : K → L} (hf : Function.Injective f)
    (bs : List (K × V)) (k : K) : latest (bs.map fun b => (f b.1,b.2)) (f k) = latest bs k := by
  induction bs with
  | nil => rfl
  | cons b bs ih => simp only [List.map_cons,latest,ih,hf.eq_iff]

omit [DecidableEq K] in
theorem latest_map_eq_none {L : Type*} [DecidableEq L] {f : K → L} (bs : List (K × V)) {l : L}
    (hl : ∀ k, f k ≠ l) : latest (bs.map fun b => (f b.1,b.2)) l = none := by
  rw [latest_eq_none_iff]
  simp only [List.map_map,List.mem_map,not_exists,not_and]
  exact fun b _ => hl b.1

/-- Earlier contents with a stream written over them. -/
def overlay (f : K → Option V) (bs : List (K × V)) : K → Option V :=
  fun k => (latest bs k).or (f k)

@[simp] theorem overlay_nil (f : K → Option V) : overlay f [] = f := by
  funext k; simp [overlay]

theorem overlay_append (f : K → Option V) (bs cs : List (K × V)) :
    overlay f (bs ++ cs) = overlay (overlay f bs) cs := by
  funext k
  simp only [overlay,latest_append,Option.or_assoc]

theorem overlay_cons (f : K → Option V) (b : K × V) (bs : List (K × V)) :
    overlay f (b::bs) = overlay (overlay f [b]) bs := overlay_append f [b] bs

end TrieRebuild.Foundation
