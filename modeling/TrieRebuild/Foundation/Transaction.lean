import Mathlib

/-! Write transactions over a store, any of whose calls may fail. A transaction works on a copy
of the store; the copy replaces the store only when every call, the final commit included,
has succeeded. -/
namespace TrieRebuild.Foundation

/-- A program of database calls. It reads which of its calls fail, and threads the number of
calls made so far and the working copy. -/
abbrev Tx (ε σ : Type) := ReaderT (ℕ → Option ε) (StateT (ℕ × σ) (Except ε))

namespace Tx
variable {ε σ α β : Type}

/-- One call: it fails as scheduled, or acts on the working copy. -/
def call (f : σ → α × σ) : Tx ε σ α := fun fails w =>
  match fails w.1 with
  | some e => .error e
  | none => .ok ((f w.2).1,(w.1+1,(f w.2).2))

/-- A call with an effect and no answer. -/
def modify (f : σ → σ) : Tx ε σ Unit := call fun s => ((),f s)

/-- A call that only has to succeed: opening a transaction or a cursor, committing. -/
def touch : Tx ε σ Unit := modify id

/-- Compute from the working copy, with errors of its own. -/
def inspect (f : σ → Except ε α) : Tx ε σ α := fun _ w => (f w.2).map fun a => (a,w)

/-- Run a transaction on the committed store. An error drops the working copy. -/
def run (x : Tx ε σ α) (fails : ℕ → Option ε) (s : σ) : Except ε α × σ :=
  match x fails (0,s) with
  | .ok r => (.ok r.1,r.2.2)
  | .error e => (.error e,s)

/-- The schedule on which no call fails. -/
def noFault : ℕ → Option ε := fun _ => none

/-- From `s` the program makes `c` calls. If none of them fails it answers `a` and leaves `s'`;
otherwise it stops with the error of one of them. -/
structure Yields (x : Tx ε σ α) (s : σ) (a : α) (c : ℕ) (s' : σ) : Prop where
  ok : ∀ fails n, (∀ i < c, fails (n+i) = none) → x fails (n,s) = .ok (a,(n+c,s'))
  error : ∀ fails n, (∃ i < c, fails (n+i) ≠ none) →
    ∃ e, (∃ i < c, fails (n+i) = some e) ∧ x fails (n,s) = .error e

theorem yields_pure (s : σ) (a : α) : Yields (pure a : Tx ε σ α) s a 0 s where
  ok _ _ _ := rfl
  error _ _ h := by obtain ⟨i,hi,_⟩ := h; omega

theorem yields_call (f : σ → α × σ) (s : σ) :
    Yields (call f : Tx ε σ α) s (f s).1 1 (f s).2 where
  ok fails n h := by
    have h0 := h 0 (by omega)
    simp only [Nat.add_zero] at h0
    simp [call,h0]
  error fails n h := by
    obtain ⟨i,hi,he⟩ := h
    obtain rfl : i = 0 := by omega
    obtain ⟨e,he⟩ := Option.ne_none_iff_exists'.mp he
    refine ⟨e,⟨0,by omega,he⟩,?_⟩
    simp only [Nat.add_zero] at he
    simp [call,he]

theorem yields_modify (f : σ → σ) (s : σ) : Yields (modify f : Tx ε σ Unit) s () 1 (f s) :=
  yields_call _ s

theorem yields_touch (s : σ) : Yields (touch : Tx ε σ Unit) s () 1 s := yields_modify id s

theorem yields_inspect {f : σ → Except ε α} {s : σ} {a : α} (h : f s = .ok a) :
    Yields (inspect f) s a 0 s where
  ok fails n _ := by
    rw [inspect,h]
    rfl
  error _ _ h := by obtain ⟨i,hi,_⟩ := h; omega

/-- Sequencing adds up the calls and chains the working copies. -/
theorem Yields.bind {x : Tx ε σ α} {k : α → Tx ε σ β} {s s' s'' : σ} {a : α} {b : β} {c d : ℕ}
    (hx : x.Yields s a c s') (hk : (k a).Yields s' b d s'') :
    (x >>= k).Yields s b (c+d) s'' where
  ok fails n h := by
    have h1 := hx.ok fails n (fun i hi => h i (by omega))
    have h2 := hk.ok fails (n+c) (fun i hi => by
      rw [Nat.add_assoc]
      exact h (c+i) (by omega))
    have hb : (x >>= k) fails (n,s) = (k a) fails (n+c,s') := by
      change (x fails (n,s)).bind (fun r => k r.1 fails r.2) = _
      rw [h1]
      rfl
    rw [hb,h2,Nat.add_assoc]
  error fails n h := by
    by_cases hc : ∃ i < c, fails (n+i) ≠ none
    · obtain ⟨e,⟨i,hi,hf⟩,he⟩ := hx.error fails n hc
      refine ⟨e,⟨i,by omega,hf⟩,?_⟩
      change (x fails (n,s)).bind (fun r => k r.1 fails r.2) = _
      rw [he]
      rfl
    · push Not at hc
      have h1 := hx.ok fails n hc
      have hb : (x >>= k) fails (n,s) = (k a) fails (n+c,s') := by
        change (x fails (n,s)).bind (fun r => k r.1 fails r.2) = _
        rw [h1]
        rfl
      obtain ⟨i,hi,hf⟩ := h
      -- the failing call lies past the calls of `x`
      have hci : c ≤ i := by
        by_contra hlt
        exact hf (hc i (by omega))
      obtain ⟨e,⟨j,hj,hf'⟩,he⟩ := hk.error fails (n+c)
        ⟨i-c,by omega,by rw [Nat.add_assoc,Nat.add_sub_cancel' hci]; exact hf⟩
      exact ⟨e,⟨c+j,by omega,by rw [← Nat.add_assoc]; exact hf'⟩,by rw [hb,he]⟩

theorem Yields.congr {x : Tx ε σ α} {s s' : σ} {a a' : α} {c c' : ℕ} (h : x.Yields s a c s')
    (ha : a = a') (hc : c = c') : x.Yields s a' c' s' := by subst ha hc; exact h

theorem yields_modify_pure (f : σ → σ) (s : σ) (a : α) :
    Yields (do modify f; pure a : Tx ε σ α) s a 1 (f s) :=
  (yields_modify f s).bind (k := fun _ => pure a) (yields_pure (f s) a)

/-- Loop rule: an invariant of the processed prefix that every iteration carries on. -/
theorem yields_foldlM {step : α → β → Tx ε σ α} (I : List β → α → σ → Prop) (bs : List β)
    (hstep : ∀ done b rest, bs = done ++ b::rest → ∀ a s, I done a s →
      ∃ a' c s', (step a b).Yields s a' c s' ∧ I (done ++ [b]) a' s')
    {a : α} {s : σ} (h0 : I [] a s) :
    ∃ a' c s', (bs.foldlM step a : Tx ε σ α).Yields s a' c s' ∧ I bs a' s' := by
  suffices h : ∀ rest done, bs = done ++ rest → ∀ a s, I done a s →
      ∃ a' c s', (rest.foldlM step a : Tx ε σ α).Yields s a' c s' ∧ I bs a' s' by
    exact h bs [] rfl a s h0
  intro rest
  induction rest with
  | nil =>
    intro done hd a s hi
    rw [List.append_nil] at hd
    exact ⟨a,0,s,yields_pure s a,hd ▸ hi⟩
  | cons b rest ih =>
    intro done hd a s hi
    obtain ⟨a1,c1,s1,h1,hi1⟩ := hstep done b rest hd a s hi
    obtain ⟨a2,c2,s2,h2,hi2⟩ := ih (done ++ [b]) (by simp [hd]) a1 s1 hi1
    rw [List.foldlM_cons]
    exact ⟨a2,c1+c2,s2,h1.bind h2,hi2⟩

theorem Yields.run_ok {x : Tx ε σ α} {s s' : σ} {a : α} {c : ℕ} (h : x.Yields s a c s')
    {fails : ℕ → Option ε} (hf : ∀ i < c, fails i = none) : x.run fails s = (.ok a,s') := by
  have he := h.ok fails 0 (by simpa using hf)
  simp [run,he]

theorem Yields.run_noFault {x : Tx ε σ α} {s s' : σ} {a : α} {c : ℕ} (h : x.Yields s a c s') :
    x.run noFault s = (.ok a,s') := h.run_ok fun _ _ => rfl

/-- A transaction with a failing call reports it and leaves the committed store as it was. -/
theorem Yields.run_error {x : Tx ε σ α} {s s' : σ} {a : α} {c : ℕ} (h : x.Yields s a c s')
    {fails : ℕ → Option ε} (hf : ∃ i < c, fails i ≠ none) :
    ∃ e, (∃ i < c, fails i = some e) ∧ x.run fails s = (.error e,s) := by
  obtain ⟨e,hi,he⟩ := h.error fails 0 (by simpa using hf)
  refine ⟨e,by simpa using hi,?_⟩
  simp [run,he]

/-- A transaction that ends well has had no failing call. -/
theorem Yields.of_run_ok {x : Tx ε σ α} {s s' t : σ} {a b : α} {c : ℕ} (h : x.Yields s a c s')
    {fails : ℕ → Option ε} (hr : x.run fails s = (.ok b,t)) : b = a ∧ t = s' := by
  by_cases hf : ∃ i < c, fails i ≠ none
  · obtain ⟨e,-,he⟩ := h.run_error hf
    rw [hr] at he
    cases he
  · push Not at hf
    rw [h.run_ok hf] at hr
    cases hr
    exact ⟨rfl,rfl⟩

/-- Whatever the schedule, an error leaves the committed store as it was. -/
theorem run_snd_of_error {x : Tx ε σ α} {fails : ℕ → Option ε} {s : σ} {e : ε}
    (h : (x.run fails s).1 = .error e) : (x.run fails s).2 = s := by
  revert h
  cases hx : x fails (0,s) with
  | error e' => simp [run,hx]
  | ok r => simp [run,hx]

/-- How many calls a program makes when none of them fails. -/
def calls (x : Tx ε σ α) (s : σ) : ℕ :=
  match x noFault (0,s) with
  | .ok r => r.2.1
  | .error _ => 0

theorem Yields.calls_eq {x : Tx ε σ α} {s s' : σ} {a : α} {c : ℕ} (h : x.Yields s a c s') :
    x.calls s = c := by
  have he := h.ok noFault 0 (fun _ _ => rfl)
  simp [calls,he]

/-- Open a transaction, run the body, commit. -/
def transact (x : Tx ε σ α) : Tx ε σ α := do
  touch
  let a ← x
  touch
  pure a

theorem Yields.transact {x : Tx ε σ α} {s s' : σ} {a : α} {c : ℕ} (h : x.Yields s a c s') :
    (transact x).Yields s a (c+2) s' :=
  ((yields_touch s).bind (h.bind ((yields_touch s').bind (yields_pure s' a)))).congr rfl
    (by omega)

theorem bind_of_error {x : Tx ε σ α} {fails : ℕ → Option ε} {w : ℕ × σ} {e : ε}
    (h : x fails w = .error e) (k : α → Tx ε σ β) : (x >>= k) fails w = .error e := by
  change (x fails w).bind (fun r => k r.1 fails r.2) = _
  rw [h]
  rfl

/-- On any schedule a body that fails of itself fails its transaction, unless opening it fails
first. -/
theorem run_transact_error {x : Tx ε σ α} {fails : ℕ → Option ε} {s : σ} {e : ε}
    (h : x fails (1,s) = .error e) :
    ∃ e', (fails 0 = some e' ∨ e' = e) ∧ (transact x).run fails s = (.error e',s) := by
  cases hf : fails 0 with
  | some e' =>
    have ht : (touch : Tx ε σ Unit) fails (0,s) = .error e' := by simp [touch,modify,call,hf]
    refine ⟨e',.inl rfl,?_⟩
    rw [run,transact,bind_of_error ht]
  | none =>
    have ht : transact x fails (0,s) = (x >>= fun a => do touch; pure a) fails (1,s) := by
      change ((touch : Tx ε σ Unit) fails (0,s)).bind _ = _
      simp [touch,modify,call,hf,Except.bind]
    refine ⟨e,.inr rfl,?_⟩
    rw [run,ht,bind_of_error h]

end Tx
end TrieRebuild.Foundation
