import TrieRebuild.Foundation.Overlay

/-! Finite maps with values of one type: mathlib's `Finmap`, its key-value pairs, filtering,
bulk insertion and the key-ordered listing. -/
namespace TrieRebuild.Foundation

abbrev FiniteMap (K V : Type) := Finmap fun _ : K => V

namespace FiniteMap
section Pairs
variable {K V : Type} [DecidableEq K]

theorem lookup_insert (m : FiniteMap K V) (k k' : K) (v : V) :
    (m.insert k v).lookup k' = if k' = k then some v else m.lookup k' := by
  split_ifs with h
  · subst h; exact Finmap.lookup_insert m
  · exact Finmap.lookup_insert_of_ne m h

theorem lookup_erase (m : FiniteMap K V) (k k' : K) :
    (m.erase k).lookup k' = if k' = k then none else m.lookup k' := by
  split_ifs with h
  · subst h; exact Finmap.lookup_erase k' m
  · exact Finmap.lookup_erase_ne h

theorem lookup_union (m n : FiniteMap K V) (k : K) :
    (m ∪ n).lookup k = (m.lookup k).or (n.lookup k) := by
  by_cases h : k ∈ m
  · rw [Finmap.lookup_union_left h]
    obtain ⟨v,hv⟩ := Finmap.mem_iff.mp h
    simp [hv]
  · rw [Finmap.lookup_union_right h,Finmap.lookup_eq_none.mpr h,Option.none_or]

/-- Insert the pairs of another map, as Rust's `extend`. -/
def extend (m n : FiniteMap K V) : FiniteMap K V := n ∪ m

theorem lookup_extend (m n : FiniteMap K V) (k : K) :
    (extend m n).lookup k = (n.lookup k).or (m.lookup k) := lookup_union n m k

/-- Merging maps of which only one can hold a given key. -/
theorem lookup_foldl_extend {ι : Type} [DecidableEq ι] (f : ι → FiniteMap K V) {k : K} {j : ι}
    (h : ∀ i, i ≠ j → (f i).lookup k = none) (l : List ι) (m : FiniteMap K V) :
    (l.foldl (fun m i => extend m (f i)) m).lookup k =
      if j ∈ l then ((f j).lookup k).or (m.lookup k) else m.lookup k := by
  induction l generalizing m with
  | nil => simp
  | cons i l ih =>
    rw [List.foldl_cons,ih,lookup_extend]
    by_cases hi : i = j
    · subst hi
      cases (f i).lookup k <;> simp
    · simp [h i hi,Ne.symm hi]

omit [DecidableEq K] in
/-- The key-value pairs of a map. -/
def pairs (m : FiniteMap K V) : Multiset (K × V) := m.entries.map fun e => (e.1,e.2)

theorem mem_pairs {m : FiniteMap K V} {k : K} {v : V} :
    (k,v) ∈ pairs m ↔ m.lookup k = some v := by
  rw [Finmap.lookup_eq_some_iff]
  simp only [pairs,Multiset.mem_map]
  constructor
  · rintro ⟨⟨a,b⟩,he,h⟩
    cases h
    exact he
  · intro h
    exact ⟨⟨k,v⟩,h,rfl⟩

omit [DecidableEq K] in
theorem keys_pairs (m : FiniteMap K V) : (pairs m).map Prod.fst = m.keys.val := by
  simp only [pairs,Multiset.map_map]
  rfl

omit [DecidableEq K] in
theorem nodup_keys_pairs (m : FiniteMap K V) : ((pairs m).map Prod.fst).Nodup := by
  rw [keys_pairs]
  exact m.keys.nodup

omit [DecidableEq K] in
theorem nodup_pairs (m : FiniteMap K V) : (pairs m).Nodup :=
  Multiset.Nodup.of_map _ (nodup_keys_pairs m)

omit [DecidableEq K] in
@[simp] theorem pairs_empty : pairs (∅ : FiniteMap K V) = 0 := rfl

omit [DecidableEq K] in
/-- Keep the pairs that satisfy a predicate, as Rust's `retain`. -/
def retain (p : K → V → Bool) (m : FiniteMap K V) : FiniteMap K V where
  entries := m.entries.filter fun e => p e.1 e.2
  nodupKeys := Multiset.nodup_keys.mp
    (Multiset.nodup_of_le (Multiset.map_le_map (Multiset.filter_le _ _)) (Multiset.nodup_keys.mpr m.nodupKeys))

omit [DecidableEq K] in
theorem pairs_retain (p : K → V → Bool) (m : FiniteMap K V) :
    pairs (retain p m) = (pairs m).filter fun b => p b.1 b.2 := by
  simp only [pairs,retain,Multiset.filter_map]
  rfl

theorem lookup_retain (p : K → V → Bool) (m : FiniteMap K V) (k : K) :
    (retain p m).lookup k = (m.lookup k).filter (p k) := by
  apply Option.ext
  intro v
  rw [← mem_pairs,pairs_retain,Multiset.mem_filter,mem_pairs,Option.filter_eq_some_iff]

omit [DecidableEq K] in
/-- Change the value of each pair. -/
def mapValues {W : Type} (f : V → W) (m : FiniteMap K V) : FiniteMap K W where
  entries := m.entries.map fun e => ⟨e.1,f e.2⟩
  nodupKeys := by
    apply Multiset.nodup_keys.mp
    rw [Multiset.keys,Multiset.map_map]
    exact Multiset.nodup_keys.mpr m.nodupKeys

theorem lookup_mapValues {W : Type} (f : V → W) (m : FiniteMap K V) (k : K) :
    (mapValues f m).lookup k = (m.lookup k).map f := by
  apply Option.ext
  intro w
  rw [← mem_pairs,pairs,mapValues,Multiset.map_map]
  simp only [Multiset.mem_map,Function.comp_apply,Prod.mk.injEq,Option.map_eq_some_iff]
  constructor
  · rintro ⟨⟨a,v⟩,he,rfl,rfl⟩
    exact ⟨v,Finmap.lookup_eq_some_iff.mpr he,rfl⟩
  · rintro ⟨v,hv,rfl⟩
    exact ⟨⟨k,v⟩,Finmap.lookup_eq_some_iff.mp hv,rfl,rfl⟩

/-- Elements without repetition under each key, tagged with their key, do not repeat. -/
theorem nodup_bind_pairs {E : Type} {m : FiniteMap K V} {f : V → Multiset E}
    (hf : ∀ k v, m.lookup k = some v → (f v).Nodup) :
    ((pairs m).bind fun b => (f b.2).map fun e => (b.1,e)).Nodup := by
  apply Multiset.nodup_bind.mpr
  constructor
  · intro b hb
    exact (hf b.1 b.2 (mem_pairs.mp hb)).map fun e e' h => (Prod.mk.inj h).2
  · refine Multiset.Nodup.pairwise ?_ (nodup_pairs m)
    intro b hb b' hb' hne
    rw [Function.onFun,Multiset.disjoint_left]
    intro x hx hx'
    obtain ⟨e,_,rfl⟩ := Multiset.mem_map.mp hx
    obtain ⟨e',_,he⟩ := Multiset.mem_map.mp hx'
    -- two pairs of one key are the same pair
    have hk : b'.1 = b.1 := (Prod.mk.inj he).1
    have hl := mem_pairs.mp hb'
    rw [hk,mem_pairs.mp hb] at hl
    exact hne (Prod.ext hk.symm (Option.some.inj hl))

/-- Insert the pairs of a list one after another. -/
def insertAll (m : FiniteMap K V) (bs : List (K × V)) : FiniteMap K V :=
  bs.foldl (fun m b => m.insert b.1 b.2) m

theorem lookup_insertAll (m : FiniteMap K V) (bs : List (K × V)) :
    (fun k => (insertAll m bs).lookup k) = overlay (fun k => m.lookup k) bs := by
  induction bs generalizing m with
  | nil => simp [insertAll]
  | cons b bs ih =>
    have hb : (fun k => (m.insert b.1 b.2).lookup k) = overlay (fun k => m.lookup k) [b] := by
      funext k
      rw [lookup_insert,overlay]
      by_cases hk : k = b.1 <;> simp [latest,hk]
    rw [overlay_cons,← hb]
    exact ih _

/-- Perform the writes of a list one after another; a write of none erases. -/
def writeAll (m : FiniteMap K V) (ws : List (K × Option V)) : FiniteMap K V :=
  ws.foldl (fun m w => match w.2 with | some v => m.insert w.1 v | none => m.erase w.1) m

theorem lookup_writeAll (m : FiniteMap K V) (ws : List (K × Option V)) :
    (fun k => (writeAll m ws).lookup k) = (Patch.ofWrites ws).apply fun k => m.lookup k := by
  induction ws generalizing m with
  | nil => rfl
  | cons w ws ih =>
    obtain ⟨a,v⟩ := w
    rw [writeAll,List.foldl_cons,← writeAll,ih]
    funext k
    cases v with
    | none =>
      simp only [Patch.apply,Patch.ofWrites_cons,lookup_erase]
      cases Patch.ofWrites ws k <;> by_cases hk : k = a <;> simp [hk]
    | some v =>
      simp only [Patch.apply,Patch.ofWrites_cons,lookup_insert]
      cases Patch.ofWrites ws k <;> by_cases hk : k = a <;> simp [hk]

end Pairs

section Ordered
variable {K V : Type} [LinearOrder K]

/-- The pairs in key order, as a B-tree map iterates. -/
def listing (m : FiniteMap K V) : List (K × V) :=
  (m.keys.sort (· ≤ ·)).filterMap fun k => (m.lookup k).map fun v => (k,v)

theorem mem_listing {m : FiniteMap K V} {k : K} {v : V} :
    (k,v) ∈ listing m ↔ m.lookup k = some v := by
  simp only [listing,List.mem_filterMap,Finset.mem_sort,Option.map_eq_some_iff,Prod.mk.injEq]
  constructor
  · rintro ⟨a,-,w,hw,rfl,rfl⟩
    exact hw
  · intro h
    exact ⟨k,Finmap.mem_keys.mpr (Finmap.mem_of_lookup_eq_some h),v,h,rfl,rfl⟩

theorem nodup_listing (m : FiniteMap K V) : (listing m).Nodup := by
  apply List.Nodup.filterMap _ (Finset.sort_nodup _ _)
  rintro a b ⟨k,v⟩ ha hb
  simp only [Option.mem_def,Option.map_eq_some_iff,Prod.mk.injEq] at ha hb
  obtain ⟨_,_,ha,_⟩ := ha
  obtain ⟨_,_,hb,_⟩ := hb
  exact ha.trans hb.symm

theorem coe_listing (m : FiniteMap K V) : (listing m : Multiset (K × V)) = pairs m := by
  apply (Multiset.Nodup.ext (Multiset.coe_nodup.mpr (nodup_listing m)) (nodup_pairs m)).mpr
  rintro ⟨k,v⟩
  rw [Multiset.mem_coe,mem_listing,mem_pairs]

theorem nodup_keys_listing (m : FiniteMap K V) : ((listing m).map Prod.fst).Nodup := by
  have h := nodup_keys_pairs m
  rw [← coe_listing,Multiset.map_coe] at h
  exact Multiset.coe_nodup.mp h

theorem latest_listing (m : FiniteMap K V) (k : K) : latest (listing m) k = m.lookup k := by
  apply Option.ext
  intro v
  rw [latest_eq_some_iff (nodup_keys_listing m),mem_listing]

/-- A loop over distinct keys that sets at each key what a function says, or leaves it. -/
theorem lookup_foldl_of_step {W : Type} {step : FiniteMap K W → K × V → FiniteMap K W}
    {f : K → V → Option W}
    (hstep : ∀ n b k, (step n b).lookup k =
      if k = b.1 then (f b.1 b.2).or (n.lookup k) else n.lookup k)
    {l : List (K × V)} (hn : (l.map Prod.fst).Nodup) (n : FiniteMap K W) (k : K) :
    (l.foldl step n).lookup k = ((latest l k).bind (f k)).or (n.lookup k) := by
  induction l using List.reverseRecOn with
  | nil => simp
  | append_singleton l b ih =>
    rw [List.map_append] at hn
    rw [List.foldl_append,List.foldl_cons,List.foldl_nil,hstep,ih hn.of_append_left,latest_concat]
    by_cases hk : k = b.1
    · have hnew : latest l k = none := by
        rw [latest_eq_none_iff,hk]
        exact fun hm => List.disjoint_of_nodup_append hn hm (List.mem_singleton_self _)
      rw [if_pos hk,if_pos hk,hnew,hk]
      rfl
    · rw [if_neg hk,if_neg hk]

/-- Building a map from the listing of another one. -/
theorem lookup_foldl_listing {W : Type} {step : FiniteMap K W → K × V → FiniteMap K W}
    {f : K → V → Option W}
    (hstep : ∀ n b k, (step n b).lookup k =
      if k = b.1 then (f b.1 b.2).or (n.lookup k) else n.lookup k)
    (m : FiniteMap K V) (k : K) :
    ((listing m).foldl step ∅).lookup k = (m.lookup k).bind (f k) := by
  rw [lookup_foldl_of_step hstep (nodup_keys_listing m),latest_listing,Finmap.lookup_empty,
    Option.or_none]

theorem pairwise_keys_listing (m : FiniteMap K V) :
    ((listing m).map Prod.fst).Pairwise (· < ·) := by
  rw [List.pairwise_map,listing,List.pairwise_filterMap]
  refine (Finset.sortedLT_sort m.keys).pairwise.imp fun {k k'} hk b hb b' hb' => ?_
  obtain ⟨v,-,rfl⟩ := Option.map_eq_some_iff.mp hb
  obtain ⟨v',-,rfl⟩ := Option.map_eq_some_iff.mp hb'
  exact hk

/-- Lists sorted by distinct keys are equal if they have the same members. -/
theorem eq_of_pairwise_keys {l m : List (K × V)} (hl : (l.map Prod.fst).Pairwise (· < ·))
    (hm : (m.map Prod.fst).Pairwise (· < ·)) (h : ∀ k v, (k,v) ∈ l ↔ (k,v) ∈ m) : l = m := by
  have hnodup : ∀ {n : List (K × V)}, (n.map Prod.fst).Pairwise (· < ·) → n.Nodup :=
    fun hn => List.Nodup.of_map Prod.fst (hn.imp fun hk => hk.ne)
  have hperm : l.Perm m :=
    (List.perm_ext_iff_of_nodup (hnodup hl) (hnodup hm)).mpr fun e => h e.1 e.2
  apply hperm.eq_of_pairwise _ (List.pairwise_map.mp hl) (List.pairwise_map.mp hm)
  exact fun a b _ _ hab hba => absurd hab hba.not_gt

end Ordered
end FiniteMap
end TrieRebuild.Foundation
