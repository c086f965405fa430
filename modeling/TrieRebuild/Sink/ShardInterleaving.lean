import TrieRebuild.Foundation.Interleaving
import TrieRebuild.Foundation.Parts
import TrieRebuild.Sink.TrieUpdatesSink
import TrieRebuild.Trie.ReferenceReth

/-! Threads that call `on_branch_node` on one `TrieUpdatesSink`, in any interleaving. Calls on
different shards overlap; whatever they do, the merged shards are what one unsharded map collects
in the order in which the calls took their locks. -/
namespace TrieRebuild
open Foundation
namespace TrieUpdatesSink

/-- A thread between two calls, waiting for the lock of its node's shard, under that lock, or
unwound. -/
inductive Caller
  | idle
  | waiting (n : Node)
  | locked (n : Node)
  | panicked

/-- The node of a call that has not taken its lock. -/
def Caller.unlocked : Caller → List Node
  | waiting n => [n]
  | _ => []

/-- The sink shared by threads, each with the nodes it has yet to emit. `order` records the calls
as they take their locks. -/
structure Shared (ι : Type) where
  sink : TrieUpdatesSink := {}
  callers : ι → Caller := fun _ => .idle
  todo : ι → List Node
  order : List (ι × Node) := []

section Model
variable {ι : Type} [DecidableEq ι] (debugAssertions : Bool)

/-- A fresh sink, and the calls the threads will make. -/
def start (calls : ι → List Node) : Shared ι where
  todo := calls

/-- One step of one thread: into a call, to the lock of the shard, and out of the call again. -/
inductive Step : Shared ι → Shared ι → Prop
  | call (σ) (t : ι) (n : Node) (rest : List Node) (hc : σ.callers t = .idle)
      (ht : σ.todo t = n::rest) :
      Step σ { σ with
        callers := Function.update σ.callers t (.waiting n)
        todo := Function.update σ.todo t rest }
  | noShard (σ) (t : ι) (n : Node) (hc : σ.callers t = .waiting n) (hs : shardIndex n = none) :
      Step σ { σ with callers := Function.update σ.callers t .panicked }
  | lock (σ) (t : ι) (n : Node) (shard : UInt8) (hc : σ.callers t = .waiting n)
      (hs : shardIndex n = some shard)
      (hfree : ∀ u m, σ.callers u = .locked m → shardIndex m ≠ some shard) :
      Step σ { σ with
        callers := Function.update σ.callers t (.locked n)
        order := σ.order ++ [(t,n)] }
  | leave (σ) (t : ι) (n : Node) (hc : σ.callers t = .locked n)
      (hp : (onBranchNode debugAssertions σ.sink n).1 = none) :
      Step σ { σ with
        sink := (onBranchNode debugAssertions σ.sink n).2
        callers := Function.update σ.callers t .idle }
  | unwind (σ) (t : ι) (n : Node) (p : SinkPanic) (hc : σ.callers t = .locked n)
      (hp : (onBranchNode debugAssertions σ.sink n).1 = some p) :
      Step σ { σ with
        sink := (onBranchNode debugAssertions σ.sink n).2
        callers := Function.update σ.callers t .panicked }

abbrev Reaches : Shared ι → Shared ι → Prop := Relation.ReflTransGen (Step debugAssertions)

/-- All calls have been made and have returned. -/
def Shared.Finished (σ : Shared ι) : Prop := ∀ t, σ.callers t = .idle ∧ σ.todo t = []

/-- No call has panicked. -/
def Shared.Intact (σ : Shared ι) : Prop := ∀ t, σ.callers t ≠ .panicked

/-- What holds while no call has panicked. `done` are the nodes of the calls that have left their
lock, in that order; on each shard they are the calls that took the lock, up to the one under it. -/
structure Ordered (calls : ι → List Node) (σ : Shared ι) (done : List Node) : Prop where
  holds : Holds σ.sink done
  calls : ∀ t, ofThread t σ.order ++ (σ.callers t).unlocked ++ σ.todo t = calls t
  locked : ∀ t n, σ.callers t = .locked n →
    (σ.order.map Prod.snd).filter (fun m => homeOf m.key = homeOf n.key) =
      done.filter (fun m => homeOf m.key = homeOf n.key) ++ [n]
  free : ∀ i, (∀ t n, σ.callers t = .locked n → homeOf n.key ≠ i) →
    (σ.order.map Prod.snd).filter (fun m => homeOf m.key = i) =
      done.filter fun m => homeOf m.key = i
  exclusive : ∀ t u n m, σ.callers t = .locked n → σ.callers u = .locked m →
    homeOf n.key = homeOf m.key → t = u

end Model

section Run
variable {ι : Type} [DecidableEq ι] {debugAssertions : Bool} {calls : ι → List Node}

theorem Ordered.start : Ordered calls (start calls) [] where
  holds := holds_nil
  calls _ := rfl
  locked t n h := by cases h
  free _ _ := rfl
  exclusive t u n m h := by cases h

/-- The shards are locked by home: two nodes with the same shard index have the same home. -/
theorem shardIndex_ne {n m : Node} {shard : UInt8} (hn : shardIndex n = some shard)
    (hm : (shardIndex m).isSome) (h : shardIndex m ≠ some shard) :
    homeOf m.key ≠ homeOf n.key := by
  obtain ⟨other,ho⟩ := Option.isSome_iff_exists.mp hm
  intro he
  apply h
  rw [ho]
  congr 1
  apply UInt8.toNat_inj.mp
  rw [shardIndex_eq ho,shardIndex_eq hn,he]

/-- A thread's call is one of its calls. -/
theorem Ordered.mem_calls {σ : Shared ι} {done : List Node} (h : Ordered calls σ done) {t : ι}
    {n : Node} (hc : σ.callers t = .waiting n ∨ σ.callers t = .locked n) : ∃ u, n ∈ calls u := by
  rcases hc with hc | hc
  · refine ⟨t,?_⟩
    rw [← h.calls t,hc]
    simp [Caller.unlocked]
  · have hm : n ∈ (σ.order.map Prod.snd).filter fun m => homeOf m.key = homeOf n.key := by
      rw [h.locked t n hc]
      simp
    obtain ⟨⟨u,m⟩,hu,rfl⟩ := List.mem_map.mp (List.mem_filter.mp hm).1
    refine ⟨u,?_⟩
    rw [← h.calls u,List.append_assoc]
    exact List.mem_append_left _ (mem_ofThread.mpr hu)

theorem Ordered.call {σ : Shared ι} {done : List Node} (h : Ordered calls σ done) {t : ι}
    {n : Node} {rest : List Node} (hc : σ.callers t = .idle) (ht : σ.todo t = n::rest) :
    Ordered calls { σ with
      callers := Function.update σ.callers t (.waiting n)
      todo := Function.update σ.todo t rest } done := by
  have hlocked : ∀ {u m}, Function.update σ.callers t (.waiting n) u = .locked m →
      σ.callers u = .locked m := fun hu => (ne_of_update_eq (by simp) hu).2
  refine ⟨h.holds,?_,fun u m hu => h.locked u m (hlocked hu),fun i hi => ?_,
    fun u v m k hu hv => h.exclusive u v m k (hlocked hu) (hlocked hv)⟩
  · exact pending_of_call (by rw [hc]; rfl) ht rfl h.calls
  · apply h.free i
    exact fun u m hu => hi u m (update_eq_of_ne (by simp [hc]) hu)

theorem Ordered.lock {σ : Shared ι} {done : List Node} (h : Ordered calls σ done)
    (hcalls : ∀ t, ∀ n ∈ calls t, (shardIndex n).isSome) {t : ι} {n : Node} {shard : UInt8}
    (hc : σ.callers t = .waiting n) (hs : shardIndex n = some shard)
    (hfree : ∀ u m, σ.callers u = .locked m → shardIndex m ≠ some shard) :
    Ordered calls { σ with
      callers := Function.update σ.callers t (.locked n)
      order := σ.order ++ [(t,n)] } done := by
  have hhome : ∀ u m, σ.callers u = .locked m → homeOf m.key ≠ homeOf n.key := by
    intro u m hu
    obtain ⟨v,hv⟩ := h.mem_calls (.inr hu)
    exact shardIndex_ne hs (hcalls v m hv) (hfree u m hu)
  refine ⟨h.holds,?_,fun u m hu => ?_,fun i hi => ?_,fun u v m k hu hv he => ?_⟩
  · exact pending_of_met (by rw [hc]; rfl) rfl h.calls
  · rw [List.map_append,List.filter_append]
    by_cases hut : u = t
    · subst hut
      obtain rfl : n = m := by simpa using hu
      rw [h.free _ hhome]
      simp
    · have hu' : σ.callers u = .locked m := by simpa [Function.update_of_ne hut] using hu
      rw [h.locked u m hu']
      simp [(hhome u m hu').symm]
  · have hin : homeOf n.key ≠ i := hi t n (by simp)
    rw [List.map_append,List.filter_append,h.free i]
    · simp [hin]
    · exact fun u m hu => hi u m (update_eq_of_ne (by simp [hc]) hu)
  · by_cases hut : u = t <;> by_cases hvt : v = t
    · rw [hut,hvt]
    · subst hut
      obtain rfl : n = m := by simpa using hu
      have hv' : σ.callers v = .locked k := by simpa [Function.update_of_ne hvt] using hv
      exact absurd he.symm (hhome v k hv')
    · subst hvt
      obtain rfl : n = k := by simpa using hv
      have hu' : σ.callers u = .locked m := by simpa [Function.update_of_ne hut] using hu
      exact absurd he (hhome u m hu')
    · apply h.exclusive u v m k _ _ he
      · simpa [Function.update_of_ne hut] using hu
      · simpa [Function.update_of_ne hvt] using hv

/-- A call that returns moves its node from under the lock to the ones held. -/
theorem Ordered.leave {σ : Shared ι} {done : List Node} (h : Ordered calls σ done)
    {t : ι} {n : Node} (hc : σ.callers t = .locked n) {s : TrieUpdatesSink}
    (hs : Holds s (done ++ [n])) :
    Ordered calls { σ with
      sink := s
      callers := Function.update σ.callers t .idle } (done ++ [n]) := by
  have hlocked : ∀ {u m}, Function.update σ.callers t .idle u = .locked m →
      u ≠ t ∧ σ.callers u = .locked m := fun hu => ne_of_update_eq (by simp) hu
  refine ⟨hs,?_,fun u m hu => ?_,fun i hi => ?_,
    fun u v m k hu hv => h.exclusive u v m k (hlocked hu).2 (hlocked hv).2⟩
  · exact pending_of_eq (by rw [hc]; rfl) h.calls
  · obtain ⟨hut,hu'⟩ := hlocked hu
    have hne : homeOf n.key ≠ homeOf m.key := fun he => hut (h.exclusive u t m n hu' hc he.symm)
    rw [h.locked u m hu',List.filter_append]
    simp [hne]
  · by_cases hin : homeOf n.key = i
    · subst hin
      rw [h.locked t n hc,List.filter_append]
      simp
    · rw [List.filter_append,h.free i]
      · simp [hin]
      · intro u m hu
        by_cases hut : u = t
        · subst hut
          rw [hc] at hu
          cases hu
          exact hin
        · exact hi u m ((Function.update_of_ne hut ..).trans hu)

/-- One step keeps the order, unless a call panics. -/
theorem Ordered.step (hcalls : ∀ t, ∀ n ∈ calls t, (shardIndex n).isSome) {σ σ' : Shared ι}
    {done : List Node} (h : Ordered calls σ done) (hs : Step debugAssertions σ σ')
    (hi : σ'.Intact) : ∃ done', Ordered calls σ' done' := by
  cases hs with
  | call t n rest hc ht => exact ⟨done,h.call hc ht⟩
  | noShard t n hc hn => exact absurd (by simp) (hi t)
  | lock t n shard hc hn hfree => exact ⟨done,h.lock hcalls hc hn hfree⟩
  | leave t n hc hp =>
    obtain ⟨u,hu⟩ := h.mem_calls (.inr hc)
    have hn : debugAssertions = true → n.key ∉ done.map Node.key := by
      rintro rfl hm
      rw [h.holds.push_repeated (hcalls u n hu) hm] at hp
      cases hp
    obtain ⟨s,he,hs⟩ := h.holds.push (hcalls u n hu) hn
    rw [he]
    exact ⟨done ++ [n],h.leave hc hs⟩
  | unwind t n p hc hp => exact absurd (by simp) (hi t)

/-- A panic is not taken back. -/
theorem Shared.Intact.of_step {σ σ' : Shared ι} (hs : Step debugAssertions σ σ')
    (hi : σ'.Intact) : σ.Intact := by
  intro t hp
  cases hs with
  | call u n rest hc ht => exact hi t (update_eq_of_ne (by simp [hc]) hp)
  | noShard u n hc hn => exact hi u (by simp)
  | lock u n shard hc hn hfree => exact hi t (update_eq_of_ne (by simp [hc]) hp)
  | leave u n hc hn => exact hi t (update_eq_of_ne (by simp [hc]) hp)
  | unwind u n p hc hn => exact hi u (by simp)

/-- Along a run without panics the calls are in order. -/
theorem Ordered.of_reaches (hcalls : ∀ t, ∀ n ∈ calls t, (shardIndex n).isSome) {σ : Shared ι}
    (h : Reaches debugAssertions (TrieUpdatesSink.start calls) σ) (hi : σ.Intact) :
    ∃ done, Ordered calls σ done := by
  induction h with
  | refl => exact ⟨[],.start⟩
  | tail _ hs ih =>
    obtain ⟨done,hd⟩ := ih (hi.of_step hs)
    exact hd.step hcalls hs hi

/-- The call under a lock emits a new key if all keys are distinct. -/
theorem Ordered.key_not_mem {σ : Shared ι} {done : List Node} (h : Ordered calls σ done)
    (hd : Distinct Node.key calls) {t : ι} {n : Node} (hc : σ.callers t = .locked n) :
    n.key ∉ done.map Node.key := by
  intro hm
  obtain ⟨m,hm,he⟩ := List.mem_map.mp hm
  have hn : ((σ.order.map Prod.snd).map Node.key).Nodup := by
    apply hd.nodup
    intro u
    rw [← h.calls u,List.append_assoc]
    exact List.sublist_append_left _ _
  have hf := hn.sublist ((List.filter_sublist (l := σ.order.map Prod.snd)
    (p := fun m => homeOf m.key = homeOf n.key)).map Node.key)
  rw [h.locked t n hc,List.map_append] at hf
  apply List.disjoint_of_nodup_append hf _ (List.mem_singleton_self n.key)
  exact List.mem_map.mpr ⟨m,List.mem_filter.mpr ⟨hm,by simp [he]⟩,he⟩

/-- Without debug assertions, or with distinct keys, no step panics. -/
theorem Ordered.intact (hcalls : ∀ t, ∀ n ∈ calls t, (shardIndex n).isSome)
    (hd : debugAssertions = true → Distinct Node.key calls) {σ σ' : Shared ι} {done : List Node}
    (h : Ordered calls σ done) (hi : σ.Intact) (hs : Step debugAssertions σ σ') : σ'.Intact := by
  intro u hu
  cases hs with
  | call t n rest hc ht => exact hi u (ne_of_update_eq (by simp) hu).2
  | noShard t n hc hn =>
    obtain ⟨v,hv⟩ := h.mem_calls (.inl hc)
    have hsome := hcalls v n hv
    rw [hn] at hsome
    cases hsome
  | lock t n shard hc hn hfree => exact hi u (ne_of_update_eq (by simp) hu).2
  | leave t n hc hp => exact hi u (ne_of_update_eq (by simp) hu).2
  | unwind t n p hc hp =>
    obtain ⟨v,hv⟩ := h.mem_calls (.inr hc)
    obtain ⟨s,he,-⟩ := h.holds.push (hcalls v n hv) fun ha => h.key_not_mem (hd ha) hc
    rw [he] at hp
    cases hp

theorem Ordered.of_reaches_distinct (hcalls : ∀ t, ∀ n ∈ calls t, (shardIndex n).isSome)
    (hd : debugAssertions = true → Distinct Node.key calls) {σ : Shared ι}
    (h : Reaches debugAssertions (TrieUpdatesSink.start calls) σ) :
    σ.Intact ∧ ∃ done, Ordered calls σ done := by
  induction h with
  | refl => exact ⟨fun t h => Caller.noConfusion h,[],.start⟩
  | tail _ hs ih =>
    obtain ⟨hi,done,ho⟩ := ih
    have hi' := ho.intact hcalls hd hi hs
    exact ⟨hi',ho.step hcalls hs hi'⟩

/-- Once all calls have returned, the shards hold them in the order of their locks. -/
theorem Ordered.finished {σ : Shared ι} {done : List Node} (h : Ordered calls σ done)
    (hf : σ.Finished) :
    Interleaves calls σ.order ∧ Holds σ.sink (σ.order.map Prod.snd) := by
  constructor
  · exact interleaves_of_pending h.calls (fun t => by rw [(hf t).1]; rfl) fun t => (hf t).2
  · intro i
    rw [h.holds i,h.free i]
    intro t n hc
    rw [(hf t).1] at hc
    cases hc

/-- No call is in progress, and so far all of them were in order. -/
def Shared.Resting (calls : ι → List Node) (σ : Shared ι) : Prop :=
  (∀ u, σ.callers u = .idle) ∧ ∃ done, Ordered calls σ done

/-- A thread makes its next call while no other is in one. -/
theorem Shared.Resting.pass (hcalls : ∀ t, ∀ n ∈ calls t, (shardIndex n).isSome)
    (hd : debugAssertions = true → Distinct Node.key calls) {σ : Shared ι}
    (h : σ.Resting calls) {t : ι} {n : Node} {rest : List Node} (ht : σ.todo t = n::rest) :
    ∃ σ', Reaches debugAssertions σ σ' ∧ σ'.Resting calls ∧
      σ'.todo = Function.update σ.todo t rest := by
  obtain ⟨hidle,done,h⟩ := h
  have hn : n ∈ calls t := by
    rw [← h.calls t,ht]
    exact List.mem_append_right _ List.mem_cons_self
  obtain ⟨shard,hs⟩ := Option.isSome_iff_exists.mp (hcalls t n hn)
  have h₁ := h.call (hidle t) ht
  have hc₁ : Function.update σ.callers t (.waiting n) t = .waiting n := Function.update_self ..
  have hfree : ∀ u m, Function.update σ.callers t (.waiting n) u = .locked m →
      shardIndex m ≠ some shard := by
    intro u m hu
    have hum := (ne_of_update_eq (by simp) hu).2
    rw [hidle u] at hum
    cases hum
  have h₂ := h₁.lock hcalls hc₁ hs hfree
  obtain ⟨s,he,hh⟩ := h₂.holds.push (hcalls t n hn) fun ha =>
    h₂.key_not_mem (hd ha) (Function.update_self ..)
  have h₃ := h₂.leave (Function.update_self ..) hh
  refine ⟨_,.tail (.tail (.single (.call σ t n rest (hidle t) ht)) (.lock _ t n shard hc₁ hs hfree))
    (.leave _ t n (Function.update_self ..) (by rw [he])),⟨fun u => ?_,?_⟩,rfl⟩
  · dsimp only
    rw [Function.update_idem,Function.update_idem,Function.update_apply]
    split_ifs
    · rfl
    · exact hidle u
  · rw [he]
    exact ⟨_,h₃⟩

/-- Finitely many threads can make all their calls. -/
theorem exists_finished [Fintype ι] (hcalls : ∀ t, ∀ n ∈ calls t, (shardIndex n).isSome)
    (hd : debugAssertions = true → Distinct Node.key calls) :
    ∃ σ, Reaches debugAssertions (start calls) σ ∧ σ.Finished := by
  obtain ⟨σ,hr,hs,hdone⟩ := exists_drained (fun σ t n rest h ht => h.pass hcalls hd ht)
    (start calls) (show (start calls).Resting calls from ⟨fun u => rfl,[],.start⟩)
  exact ⟨σ,hr,fun t => ⟨hs.1 t,hdone t⟩⟩

end Run

/-- The sharded collector and an unsharded one. In every interleaving of the threads' calls that
has come to an end, the merged shards are the updates one map collects in lock order; no call
panics unless the debug assertion sees a key twice; and distinct keys give one result. -/
theorem intoTrieUpdates_refines_unsharded {ι : Type} [DecidableEq ι] (debugAssertions : Bool)
    (calls : ι → List Node)
    (hpath : ∀ t, ∀ n ∈ calls t, n.hashedAddress = none → n.path.isEmpty = false) :
    (∀ t, ∀ n ∈ calls t, ∃ shard, shardIndex n = some shard ∧ shard < 16) ∧
    (∀ σ, Reaches debugAssertions (start calls) σ → σ.Finished →
      Interleaves calls σ.order ∧
      σ.sink.intoTrieUpdates = some (.collect (σ.order.map Prod.snd)) ∧
      (∀ k, (TrieUpdates.collect (σ.order.map Prod.snd)).get k =
        latest ((σ.order.map Prod.snd).map Node.binding) k) ∧
      (TrieUpdates.collect (σ.order.map Prod.snd)).Plain) ∧
    ((debugAssertions = true → Distinct Node.key calls) →
      ∀ σ, Reaches debugAssertions (start calls) σ → σ.Intact) ∧
    (Distinct Node.key calls → ∀ σ σ', Reaches debugAssertions (start calls) σ → σ.Finished →
      Reaches debugAssertions (start calls) σ' → σ'.Finished →
        σ.sink.intoTrieUpdates = σ'.sink.intoTrieUpdates) := by
  have hcalls : ∀ t, ∀ n ∈ calls t, (shardIndex n).isSome := fun t n hn =>
    (shardIndex_isSome_iff n).mpr (hpath t n hn)
  have hfinished : ∀ σ, Reaches debugAssertions (start calls) σ → σ.Finished →
      Interleaves calls σ.order ∧ σ.sink.intoTrieUpdates =
        some (.collect (σ.order.map Prod.snd)) := by
    intro σ hr hf
    obtain ⟨done,ho⟩ := Ordered.of_reaches hcalls hr fun t => by rw [(hf t).1]; simp
    obtain ⟨hi,hh⟩ := ho.finished hf
    exact ⟨hi,hh.intoTrieUpdates_eq⟩
  refine ⟨fun t n hn => ?_,fun σ hr hf => ?_,fun hd σ hr => ?_,fun hd σ σ' hr hf hr' hf' => ?_⟩
  · obtain ⟨shard,hs⟩ := Option.isSome_iff_exists.mp (hcalls t n hn)
    refine ⟨shard,hs,UInt8.lt_iff_toNat_lt.mpr ?_⟩
    rw [shardIndex_eq hs]
    exact (homeOf n.key).isLt
  · obtain ⟨hi,hu⟩ := hfinished σ hr hf
    exact ⟨hi,hu,fun k => by rw [TrieUpdates.get_collect],TrieUpdates.plain_collect _⟩
  · exact (Ordered.of_reaches_distinct hcalls hd hr).1
  · obtain ⟨hi,hu⟩ := hfinished σ hr hf
    obtain ⟨hi',hu'⟩ := hfinished σ' hr' hf'
    rw [hu,hu']
    congr 1
    apply TrieUpdates.collect_perm _ ((hi.perm hi').map Prod.snd)
    exact hd.nodup fun t => by rw [hi t]

/-- Two threads with a node of the state trie and a node of a storage trie. -/
def sampleCalls (a b : Fin 16) : Bool → List Node
  | false => [ReferenceReth.sampleNode none a]
  | true => [ReferenceReth.sampleNode (some B256.zero) b]

theorem intoTrieUpdates_refines_unsharded_sample :
    ∃ σ, Reaches true (start (sampleCalls 1 2)) σ ∧ σ.Finished ∧ σ.Intact ∧
      Interleaves (sampleCalls 1 2) σ.order ∧
      σ.sink.intoTrieUpdates = some (.collect (σ.order.map Prod.snd)) := by
  have hpath : ∀ t, ∀ n ∈ sampleCalls 1 2 t, n.hashedAddress = none → n.path.isEmpty = false := by
    intro t n hn _
    cases t <;> obtain rfl := List.mem_singleton.mp hn <;> rfl
  have hd : Distinct Node.key (sampleCalls 1 2) := by
    refine ⟨by decide,fun t u htu a ha b hb => ?_⟩
    cases t <;> cases u <;> obtain rfl := List.mem_singleton.mp ha <;>
      obtain rfl := List.mem_singleton.mp hb <;> first | exact absurd rfl htu | decide
  obtain ⟨hshard,hfinished,hintact,-⟩ :=
    intoTrieUpdates_refines_unsharded true (sampleCalls 1 2) hpath
  have hrun : ∃ σ, Reaches true (start (sampleCalls 1 2)) σ ∧ σ.Finished :=
    exists_finished (fun t n hn => (shardIndex_isSome_iff n).mpr (hpath t n hn)) fun _ => hd
  obtain ⟨σ,hr,hf⟩ := hrun
  obtain ⟨hi,hu,-⟩ := hfinished σ hr hf
  exact ⟨σ,hr,hf,hintact (fun _ => hd) σ hr,hi,hu⟩

end TrieUpdatesSink
end TrieRebuild
