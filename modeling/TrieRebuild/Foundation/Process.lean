import TrieRebuild.Foundation.Transaction

/-! Processes that act on a world and may be stopped at any point: a program is the relation
between the world it starts from, how it ends and the world it leaves. Its weakest precondition
has a postcondition for its end and a condition on how and where it may be stopped. -/
namespace TrieRebuild.Foundation

/-- How a process stops before the end of its program. -/
inductive Stop
  | exited (code : ℕ)
  | killed
  deriving DecidableEq

/-- A part of a program, with a value at its end. -/
def Process (σ α : Type) := σ → Except Stop α → σ → Prop

namespace Process
variable {σ α β : Type}

instance monad : Monad (Process σ) where
  pure a := fun s e s' => e = .ok a ∧ s' = s
  bind x k := fun s e s' =>
    (∃ a t, x s (.ok a) t ∧ k a t e s') ∨ ∃ stop, e = .error stop ∧ x s (.error stop) s'

/-- One action, unless the process is killed before it. -/
def act (r : σ → α → σ → Prop) : Process σ α := fun s e s' =>
  (∃ a, e = .ok a ∧ r s a s') ∨ e = .error .killed ∧ s' = s

/-- A transaction on a part of the world, with its result. Killed inside it, the process has not
begun it. -/
def transaction {ε τ : Type} (get : σ → τ) (set : τ → σ → σ) (x : Tx ε τ α) :
    Process σ (Except ε α) :=
  act fun s result s' => ∃ fails t, x.run fails (get s) = (result,t) ∧ s' = set t s

/-- Leave the program, unless killed. -/
def exit (code : ℕ) : Process σ α := fun s e s' =>
  (e = .error (.exited code) ∨ e = .error .killed) ∧ s' = s

/-- One program or the other. -/
def either (x y : Process σ α) : Process σ α := fun s e s' => x s e s' ∨ y s e s'

/-- A program that is run on a condition. -/
def onlyIf (b : Bool) (x : Process σ Unit) : Process σ Unit := if b then x else pure ()

/-- Go through a list. -/
def each (xs : List β) (body : β → Process σ Unit) : Process σ Unit :=
  match xs with
  | [] => pure ()
  | x::xs => do
    body x
    each xs body

/-- A whole program: what comes to its end exits with 0. -/
def run (x : Process σ Unit) (s : σ) (stop : Stop) (s' : σ) : Prop :=
  (x >>= fun _ => exit 0 : Process σ Unit) s (.error stop) s'

/-- The weakest precondition: what the program ends with has `Q`, what it is stopped with has `X`. -/
def wp (x : Process σ α) (Q : α → σ → Prop) (X : Stop → σ → Prop) (s : σ) : Prop :=
  (∀ a s', x s (.ok a) s' → Q a s') ∧ ∀ stop s', x s (.error stop) s' → X stop s'

section Rules
variable {Q : α → σ → Prop} {X : Stop → σ → Prop} {s : σ}

theorem wp_mono {x : Process σ α} {Q' : α → σ → Prop} (h : wp x Q X s)
    (hq : ∀ a s', Q a s' → Q' a s') : wp x Q' X s :=
  ⟨fun a s' ha => hq a s' (h.1 a s' ha),h.2⟩

theorem wp_pure {a : α} (h : Q a s) : wp (pure a) Q X s := by
  constructor
  · rintro b s' ⟨hb,rfl⟩
    cases hb
    exact h
  · rintro stop s' ⟨hb,-⟩
    cases hb

theorem wp_bind {x : Process σ α} {k : α → Process σ β} {Q : β → σ → Prop}
    (h : wp x (fun a => wp (k a) Q X) X s) : wp (x >>= k) Q X s := by
  obtain ⟨hok,hstop⟩ := h
  constructor
  · rintro b s' (⟨a,t,ha,hb⟩ | ⟨stop,he,-⟩)
    · exact (hok a t ha).1 b s' hb
    · cases he
  · rintro stop s' (⟨a,t,ha,hb⟩ | ⟨stop',he,h'⟩)
    · exact (hok a t ha).2 stop s' hb
    · cases he
      exact hstop stop s' h'

theorem wp_act {r : σ → α → σ → Prop} (h : ∀ a s', r s a s' → Q a s') (hkilled : X .killed s) :
    wp (act r) Q X s := by
  constructor
  · rintro a s' (⟨b,hb,hr⟩ | ⟨hb,-⟩)
    · cases hb
      exact h a s' hr
    · cases hb
  · rintro stop s' (⟨b,hb,-⟩ | ⟨hb,rfl⟩)
    · cases hb
    · cases hb
      exact hkilled

/-- A transaction has its whole effect, or it has failed and has none. -/
theorem wp_transaction {ε τ : Type} {get : σ → τ} {set : τ → σ → σ} {x : Tx ε τ α} {a : α} {c : ℕ}
    {t : τ} {Q : Except ε α → σ → Prop} (hx : x.Yields (get s) a c t) (hset : set (get s) s = s)
    (hok : Q (.ok a) (set t s)) (herror : ∀ e, Q (.error e) s) (hkilled : X .killed s) :
    wp (transaction get set x) Q X s := by
  refine wp_act ?_ hkilled
  rintro result s' ⟨fails,t',hr,rfl⟩
  cases result with
  | ok b =>
    obtain ⟨rfl,rfl⟩ := hx.of_run_ok hr
    exact hok
  | error e =>
    have ht := Tx.run_snd_of_error (congrArg Prod.fst hr)
    rw [hr] at ht
    change t' = get s at ht
    rw [ht,hset]
    exact herror e

theorem wp_exit {code : ℕ} (h : X (.exited code) s) (hkilled : X .killed s) :
    wp (exit code : Process σ α) Q X s := by
  constructor
  · rintro a s' ⟨he | he,-⟩ <;> cases he
  · rintro stop s' ⟨he | he,rfl⟩
    · cases he
      exact h
    · cases he
      exact hkilled

theorem wp_either {x y : Process σ α} (hx : wp x Q X s) (hy : wp y Q X s) :
    wp (either x y) Q X s := by
  constructor
  · rintro a s' (h | h)
    · exact hx.1 a s' h
    · exact hy.1 a s' h
  · rintro stop s' (h | h)
    · exact hx.2 stop s' h
    · exact hy.2 stop s' h

theorem wp_onlyIf {b : Bool} {x : Process σ Unit} {R : σ → Prop}
    (hx : b = true → wp x (fun _ => R) X s) (hr : b = false → R s) :
    wp (onlyIf b x) (fun _ => R) X s := by
  cases b with
  | false => exact wp_pure (hr rfl)
  | true => exact hx rfl

/-- Loop rule: an invariant of the elements done that every pass carries on. -/
theorem wp_each {xs : List β} {body : β → Process σ Unit} (R : List β → σ → Prop)
    (h : ∀ done b rest, xs = done ++ b::rest → ∀ t, R done t →
      wp (body b) (fun _ => R (done ++ [b])) X t) (hs : R [] s) :
    wp (each xs body) (fun _ => R xs) X s := by
  suffices hrest : ∀ rest done t, xs = done ++ rest → R done t →
      wp (each rest body) (fun _ => R xs) X t by
    exact hrest xs [] s rfl hs
  intro rest
  induction rest with
  | nil =>
    intro done t hd ht
    rw [List.append_nil] at hd
    subst hd
    exact wp_pure ht
  | cons b rest ih =>
    intro done t hd ht
    refine wp_bind (wp_mono (h done b rest hd t ht) fun _ t' ht' => ?_)
    exact ih (done ++ [b]) t' (by simp [hd]) ht'

theorem wp_run {x : Process σ Unit} (h : wp x (fun _ s' => X (.exited 0) s' ∧ X .killed s') X s)
    {stop : Stop} {s' : σ} (hr : x.run s stop s') : X stop s' := by
  refine (wp_bind (Q := fun (_ : Unit) _ => True) (wp_mono h fun _ t ht => ?_)).2 stop s' hr
  exact wp_exit ht.1 ht.2

end Rules
/-- The program can end, with `Q`. -/
def can (x : Process σ α) (Q : α → σ → Prop) (s : σ) : Prop := ∃ a s', x s (.ok a) s' ∧ Q a s'

section Possible
variable {Q : α → σ → Prop} {s : σ}

theorem can_mono {x : Process σ α} {Q' : α → σ → Prop} (h : can x Q s)
    (hq : ∀ a s', Q a s' → Q' a s') : can x Q' s := by
  obtain ⟨a,s',hx,ha⟩ := h
  exact ⟨a,s',hx,hq a s' ha⟩

theorem can_pure {a : α} (h : Q a s) : can (pure a) Q s := ⟨a,s,⟨rfl,rfl⟩,h⟩

theorem can_bind {x : Process σ α} {k : α → Process σ β} {Q : β → σ → Prop}
    (h : can x (fun a => can (k a) Q) s) : can (x >>= k) Q s := by
  obtain ⟨a,t,hx,b,s',hk,hb⟩ := h
  exact ⟨b,s',.inl ⟨a,t,hx,hk⟩,hb⟩

theorem can_act {r : σ → α → σ → Prop} {a : α} {s' : σ} (hr : r s a s') (h : Q a s') :
    can (act r) Q s := ⟨a,s',.inl ⟨a,rfl,hr⟩,h⟩

theorem can_transaction {ε τ : Type} {get : σ → τ} {set : τ → σ → σ} {x : Tx ε τ α} {a : α} {c : ℕ}
    {t : τ} {Q : Except ε α → σ → Prop} (hx : x.Yields (get s) a c t)
    (hok : Q (.ok a) (set t s)) : can (transaction get set x) Q s :=
  can_act ⟨Tx.noFault,t,hx.run_noFault,rfl⟩ hok

theorem can_either {x y : Process σ α} (h : can x Q s) : can (either x y) Q s := by
  obtain ⟨a,s',hx,ha⟩ := h
  exact ⟨a,s',.inl hx,ha⟩

theorem can_onlyIf {b : Bool} {x : Process σ Unit} {R : σ → Prop}
    (hx : b = true → can x (fun _ => R) s) (hr : b = false → R s) :
    can (onlyIf b x) (fun _ => R) s := by
  cases b with
  | false => exact can_pure (hr rfl)
  | true => exact hx rfl

theorem can_each {xs : List β} {body : β → Process σ Unit} {R : σ → Prop}
    (h : ∀ b ∈ xs, ∀ t, R t → can (body b) (fun _ => R) t) (hs : R s) :
    can (each xs body) (fun _ => R) s := by
  induction xs generalizing s with
  | nil => exact can_pure hs
  | cons b xs ih =>
    refine can_bind (can_mono (h b List.mem_cons_self s hs) fun _ t ht => ?_)
    exact ih (fun b' hb' => h b' (List.mem_cons_of_mem _ hb')) ht

theorem run_of_can {x : Process σ Unit} {R : σ → Prop} (h : can x (fun _ => R) s) :
    ∃ s', x.run s (.exited 0) s' ∧ R s' := by
  obtain ⟨_,s',hx,hr⟩ := h
  exact ⟨s',.inl ⟨_,s',hx,.inl rfl,rfl⟩,hr⟩

end Possible
end Process
end TrieRebuild.Foundation
