import TrieRebuild.Foundation.Parts

/-! Calls of several threads in one order. A list of calls tagged with their threads interleaves
the threads' own lists if each of them is what the list has under its tag. -/
namespace TrieRebuild.Foundation
variable {ι α β : Type*} [DecidableEq ι]

/-- A thread in another phase than the moving one's is not the moving one. -/
theorem update_eq_of_ne {f : ι → α} {t u : ι} {a b : α} (ht : f t ≠ b) (hu : f u = b) :
    Function.update f t a u = b := by
  rw [Function.update_of_ne]
  · exact hu
  · rintro rfl
    exact ht hu

theorem ne_of_update_eq {f : ι → α} {t u : ι} {a b : α} (hab : a ≠ b)
    (h : Function.update f t a u = b) : u ≠ t ∧ f u = b := by
  have hut : u ≠ t := by
    rintro rfl
    rw [Function.update_self] at h
    exact hab h
  rw [Function.update_of_ne hut] at h
  exact ⟨hut,h⟩

/-- The calls of one thread, in order. -/
def ofThread (t : ι) (l : List (ι × α)) : List α := (l.filter fun c => c.1 = t).map Prod.snd

@[simp] theorem ofThread_nil (t : ι) : ofThread t ([] : List (ι × α)) = [] := rfl

theorem ofThread_append (t : ι) (l m : List (ι × α)) :
    ofThread t (l ++ m) = ofThread t l ++ ofThread t m := by
  simp [ofThread]

theorem ofThread_cons (t u : ι) (a : α) (l : List (ι × α)) :
    ofThread t ((u,a)::l) = if u = t then a::ofThread t l else ofThread t l := by
  by_cases h : u = t <;> simp [ofThread,h]

@[simp] theorem ofThread_concat_self (t : ι) (a : α) (l : List (ι × α)) :
    ofThread t (l ++ [(t,a)]) = ofThread t l ++ [a] := by
  simp [ofThread_append,ofThread_cons]

theorem ofThread_concat_of_ne {t u : ι} (h : u ≠ t) (a : α) (l : List (ι × α)) :
    ofThread t (l ++ [(u,a)]) = ofThread t l := by
  simp [ofThread_append,ofThread_cons,h]

theorem mem_ofThread {t : ι} {a : α} {l : List (ι × α)} : a ∈ ofThread t l ↔ (t,a) ∈ l := by
  simp [ofThread]

theorem count_ofThread [DecidableEq α] (t : ι) (a : α) (l : List (ι × α)) :
    (ofThread t l).count a = l.count (t,a) := by
  induction l with
  | nil => rfl
  | cons c l ih =>
    obtain ⟨u,b⟩ := c
    rw [ofThread_cons,List.count_cons,← ih]
    by_cases h : u = t
    · simp [h,List.count_cons]
    · simp [h]

/-- An order of all calls, each thread's in its own order. -/
def Interleaves (calls : ι → List α) (l : List (ι × α)) : Prop := ∀ t, ofThread t l = calls t

/-- Interleavings of the same calls are permutations of each other. -/
theorem Interleaves.perm {calls : ι → List α} {l m : List (ι × α)} (hl : Interleaves calls l)
    (hm : Interleaves calls m) : l.Perm m := by
  classical
  apply List.perm_iff_count.mpr
  rintro ⟨t,a⟩
  rw [← count_ofThread,← count_ofThread,hl t,hm t]

/-- An interleaving is made of the calls of all threads. -/
theorem Interleaves.coe_eq_sum [Fintype ι] {calls : ι → List α} {l : List (ι × α)}
    (h : Interleaves calls l) :
    ((l.map Prod.snd : List α) : Multiset α) = ∑ t, (calls t : Multiset α) := by
  have hcalls : ∀ t, (calls t : Multiset α) =
      ((l : Multiset (ι × α)).filter fun c => c.1 = t).map Prod.snd := by
    intro t
    rw [← h t,Multiset.filter_coe,Multiset.map_coe]
    rfl
  have hsum := map_sum (Multiset.mapAddMonoidHom (Prod.snd : ι × α → α))
    (fun t => (l : Multiset (ι × α)).filter fun c => c.1 = t) Finset.univ
  rw [sum_filter_eq (fun c : ι × α => c.1)] at hsum
  rw [Finset.sum_congr rfl fun t _ => hcalls t,← Multiset.map_coe]
  exact hsum

/-- No value of `f` occurs twice among the calls, within a thread or across threads. -/
structure Distinct (f : α → β) (calls : ι → List α) : Prop where
  within : ∀ t, ((calls t).map f).Nodup
  across : ∀ t u, t ≠ u → ∀ a ∈ calls t, ∀ b ∈ calls u, f a ≠ f b

/-- Then none occurs twice in any order of a part of the calls. -/
theorem Distinct.nodup {f : α → β} {calls : ι → List α} (h : Distinct f calls)
    {l : List (ι × α)} (hl : ∀ t, (ofThread t l).Sublist (calls t)) :
    ((l.map Prod.snd).map f).Nodup := by
  induction l with
  | nil => exact List.nodup_nil
  | cons c l ih =>
    obtain ⟨t,a⟩ := c
    have ht := hl t
    rw [ofThread_cons,if_pos rfl] at ht
    rw [List.map_cons,List.map_cons,List.nodup_cons]
    constructor
    · intro hm
      obtain ⟨b,hb,he⟩ := List.mem_map.mp hm
      obtain ⟨⟨u,b⟩,hub,rfl⟩ := List.mem_map.mp hb
      by_cases hu : u = t
      · -- the thread itself makes no second call of this value
        subst hu
        have hn := (h.within u).sublist (ht.map f)
        rw [List.map_cons,List.nodup_cons] at hn
        exact hn.1 (List.mem_map.mpr ⟨b,mem_ofThread.mpr hub,he⟩)
      · have hbu : b ∈ calls u := by
          apply (hl u).subset
          rw [mem_ofThread]
          exact List.mem_cons_of_mem _ hub
        exact h.across u t hu b hbu a (ht.subset List.mem_cons_self) he
    · apply ih
      intro u
      have hu := hl u
      rw [ofThread_cons] at hu
      split_ifs at hu
      · exact (List.sublist_cons_self _ _).trans hu
      · exact hu

section Pending
variable {L : Type*} {owed : L → List α} {order : List (ι × α)} {locals : ι → L}
variable {todo calls : ι → List α} {t : ι} {l : L} {a : α}

/-- What has been met of each thread's calls, what its state still owes and what is to be called:
unchanged if a thread comes to owe as much as before. -/
theorem pending_of_eq (hl : owed l = owed (locals t))
    (h : ∀ u, ofThread u order ++ owed (locals u) ++ todo u = calls u) (u : ι) :
    ofThread u order ++ owed (Function.update locals t l u) ++ todo u = calls u := by
  by_cases hut : u = t
  · subst hut
    rw [Function.update_self,hl]
    exact h u
  · rw [Function.update_of_ne hut]
    exact h u

/-- The owed call is met. -/
theorem pending_of_met (ha : owed (locals t) = [a]) (hl : owed l = [])
    (h : ∀ u, ofThread u order ++ owed (locals u) ++ todo u = calls u) (u : ι) :
    ofThread u (order ++ [(t,a)]) ++ owed (Function.update locals t l u) ++ todo u = calls u := by
  by_cases hut : u = t
  · subst hut
    have hu := h u
    rw [ha] at hu
    rw [Function.update_self,hl,ofThread_concat_self,List.append_nil]
    exact hu
  · rw [Function.update_of_ne hut,ofThread_concat_of_ne (Ne.symm hut)]
    exact h u

/-- The next call of a thread comes to be owed. -/
theorem pending_of_call {rest : List α} (hidle : owed (locals t) = []) (ht : todo t = a::rest)
    (hl : owed l = [a]) (h : ∀ u, ofThread u order ++ owed (locals u) ++ todo u = calls u)
    (u : ι) :
    ofThread u order ++ owed (Function.update locals t l u) ++ Function.update todo t rest u =
      calls u := by
  by_cases hut : u = t
  · subst hut
    have hu := h u
    rw [hidle,ht] at hu
    rw [Function.update_self,Function.update_self,hl]
    simpa using hu
  · rw [Function.update_of_ne hut,Function.update_of_ne hut]
    exact h u

/-- Nothing is owed and nothing to be called: all calls have been met. -/
theorem interleaves_of_pending (h : ∀ u, ofThread u order ++ owed (locals u) ++ todo u = calls u)
    (hl : ∀ u, owed (locals u) = []) (ht : ∀ u, todo u = []) : Interleaves calls order := by
  intro u
  have hu := h u
  rw [hl u,ht u,List.append_nil,List.append_nil] at hu
  exact hu

end Pending

/-- Threads that can always make their next call, one after another, can make all of them. -/
theorem exists_drained [Fintype ι] {σ : Type*} {step : σ → σ → Prop} {todo : σ → ι → List α}
    {Ready : σ → Prop}
    (hpass : ∀ s t a rest, Ready s → todo s t = a::rest →
      ∃ s', Relation.ReflTransGen step s s' ∧ Ready s' ∧
        todo s' = Function.update (todo s) t rest) (s : σ) (hs : Ready s) :
    ∃ s', Relation.ReflTransGen step s s' ∧ Ready s' ∧ ∀ t, todo s' t = [] := by
  induction hk : ∑ t, (todo s t).length generalizing s with
  | zero =>
    refine ⟨s,.refl,hs,fun t => ?_⟩
    exact List.length_eq_zero_iff.mp (Finset.sum_eq_zero_iff.mp hk t (Finset.mem_univ t))
  | succ k ih =>
    obtain ⟨t,-,hne⟩ := Finset.exists_ne_zero_of_sum_ne_zero
      (show ∑ t, (todo s t).length ≠ 0 by omega)
    obtain ⟨a,rest,ht⟩ := List.exists_cons_of_length_pos (Nat.pos_of_ne_zero hne)
    obtain ⟨s₁,hr₁,hs₁,htodo⟩ := hpass s t a rest hs ht
    have hlen := sum_update_add List.length (todo s) t rest
    rw [ht,List.length_cons] at hlen
    obtain ⟨s₂,hr₂,hs₂,hdone⟩ := ih s₁ hs₁ (by rw [htodo]; omega)
    exact ⟨s₂,hr₁.trans hr₂,hs₂,hdone⟩

/-- Two machines side by side, in the pairs of states that a relation allows. -/
inductive PairStep {σ τ : Type*} (step : σ → σ → Prop) (step' : τ → τ → Prop)
    (allowed : σ → τ → Prop) : σ × τ → σ × τ → Prop
  | first {s s' : σ} {t : τ} (h : step s s') (ha : allowed s' t) :
      PairStep step step' allowed (s,t) (s',t)
  | second {s : σ} {t t' : τ} (h : step' t t') (ha : allowed s t') :
      PairStep step step' allowed (s,t) (s,t')

/-- A run of the pair is a run of each. -/
theorem PairStep.projects {σ τ : Type*} {step : σ → σ → Prop} {step' : τ → τ → Prop}
    {allowed : σ → τ → Prop} {p q : σ × τ}
    (h : Relation.ReflTransGen (PairStep step step' allowed) p q) :
    Relation.ReflTransGen step p.1 q.1 ∧ Relation.ReflTransGen step' p.2 q.2 := by
  induction h with
  | refl => exact ⟨.refl,.refl⟩
  | tail _ hs ih =>
    cases hs with
    | first h ha => exact ⟨ih.1.tail h,ih.2⟩
    | second h ha => exact ⟨ih.1,ih.2.tail h⟩

end TrieRebuild.Foundation
