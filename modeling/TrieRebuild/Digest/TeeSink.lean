import TrieRebuild.Digest.PushInterleaving
import TrieRebuild.Rebuild.EmptyTries
import TrieRebuild.Sink.ShardInterleaving

/-! The parity check's sink: each node is pushed into a `NodeDigest`, then handed to a
`TrieUpdatesSink`, by threads that interleave in both. -/
namespace TrieRebuild
open Foundation
namespace TeeSink
variable {ι : Type}

/-- Each thread is at the same node in both: in its push, or past it and on to the collector. -/
def InStep (σ : NodeDigest.Shared ι) (τ : TrieUpdatesSink.Shared ι) : Prop :=
  ∀ t, (τ.todo t = σ.todo t ∧ σ.pushers t = .idle) ∨
    ∃ n, τ.todo t = n::σ.todo t ∧ τ.callers t = .idle

section Model
variable [DecidableEq ι] (hashOne : UInt64 → List UInt8 → UInt64) (P : NibblePacking)
variable (debugAssertions : Bool)

/-- One step of one thread, of its push or of its call of the collector. -/
abbrev Step : NodeDigest.Shared ι × TrieUpdatesSink.Shared ι →
    NodeDigest.Shared ι × TrieUpdatesSink.Shared ι → Prop :=
  PairStep (NodeDigest.Step hashOne P) (TrieUpdatesSink.Step debugAssertions) InStep

abbrev Reaches : NodeDigest.Shared ι × TrieUpdatesSink.Shared ι →
    NodeDigest.Shared ι × TrieUpdatesSink.Shared ι → Prop :=
  Relation.ReflTransGen (Step hashOne P debugAssertions)

end Model

/-- A fresh digest and a fresh collector, and the nodes the threads will emit. -/
def start (calls : ι → List Node) : NodeDigest.Shared ι × TrieUpdatesSink.Shared ι :=
  (NodeDigest.start calls,TrieUpdatesSink.start calls)

section Run
variable [DecidableEq ι] {hashOne : UInt64 → List UInt8 → UInt64} {P : NibblePacking}
variable {debugAssertions : Bool} {calls : ι → List Node}

/-- Where one thread moves, the others are as they were. -/
theorem InStep.of_others {σ σ' : NodeDigest.Shared ι} {τ τ' : TrieUpdatesSink.Shared ι}
    (h : InStep σ τ) (t : ι) (hothers : ∀ u, u ≠ t → σ'.todo u = σ.todo u ∧
      σ'.pushers u = σ.pushers u ∧ τ'.todo u = τ.todo u ∧ τ'.callers u = τ.callers u)
    (ht : τ'.todo t = σ'.todo t ∧ σ'.pushers t = .idle ∨
      ∃ n, τ'.todo t = n::σ'.todo t ∧ τ'.callers t = .idle) : InStep σ' τ' := by
  intro u
  by_cases hut : u = t
  · exact hut ▸ ht
  · obtain ⟨h₁,h₂,h₃,h₄⟩ := hothers u hut
    rw [h₁,h₂,h₃,h₄]
    exact h u

variable (hashOne P) in
variable (debugAssertions) in
/-- While all rest, a thread pushes its next node. -/
theorem pushes {σ : NodeDigest.Shared ι} {τ : TrieUpdatesSink.Shared ι} (h : σ.Resting)
    (hs : InStep σ τ) {t : ι} {n : Node} {rest : List Node} (ht : σ.todo t = n::rest)
    (hτ : τ.todo t = n::rest ∧ τ.callers t = .idle) :
    ∃ σ', Reaches hashOne P debugAssertions (σ,τ) (σ',τ) ∧ σ'.Resting ∧ InStep σ' τ ∧
      σ'.todo = Function.update σ.todo t rest := by
  let d₁ : NodeDigest := { σ.digest with
    fold := (σ.digest.fold.1 ^^^ hashOne seeds.1 (hashInput P n),σ.digest.fold.2) }
  let d₂ : NodeDigest := { d₁ with
    fold := (d₁.fold.1,d₁.fold.2 ^^^ hashOne seeds.2 (hashInput P n)) }
  let d₃ : NodeDigest := { d₂ with count := d₂.count+1 }
  let pushing (digest : NodeDigest) (p : NodeDigest.Pusher) : NodeDigest.Shared ι :=
    ⟨digest,Function.update σ.pushers t p,Function.update σ.todo t rest⟩
  have hallowed : ∀ digest p, InStep (pushing digest p) τ := by
    intro digest p
    refine hs.of_others t (fun u hu => ?_) (.inr ⟨n,?_,hτ.2⟩)
    · simp [pushing,Function.update_of_ne hu]
    · simp [pushing,hτ.1]
  have h₁ : NodeDigest.Step hashOne P σ (pushing σ.digest (.foldFirst n)) :=
    .call σ t n rest (h t) ht
  have h₂ : NodeDigest.Step hashOne P (pushing σ.digest (.foldFirst n))
      (pushing d₁ (.foldSecond n)) := by
    have hstep : NodeDigest.Step hashOne P (pushing σ.digest (.foldFirst n)) _ :=
      .fetchXorFirst _ t n (Function.update_self ..)
    dsimp only [pushing] at hstep
    rwa [Function.update_idem] at hstep
  have h₃ : NodeDigest.Step hashOne P (pushing d₁ (.foldSecond n))
      (pushing d₂ (.counting n)) := by
    have hstep : NodeDigest.Step hashOne P (pushing d₁ (.foldSecond n)) _ :=
      .fetchXorSecond _ t n (Function.update_self ..)
    dsimp only [pushing] at hstep
    rwa [Function.update_idem] at hstep
  have h₄ : NodeDigest.Step hashOne P (pushing d₂ (.counting n)) (pushing d₃ .idle) := by
    have hstep : NodeDigest.Step hashOne P (pushing d₂ (.counting n)) _ :=
      .fetchAdd _ t n (Function.update_self ..)
    dsimp only [pushing] at hstep
    rwa [Function.update_idem] at hstep
  refine ⟨pushing d₃ .idle,Relation.ReflTransGen.refl
    |>.tail (.first h₁ (hallowed _ _)) |>.tail (.first h₂ (hallowed _ _))
    |>.tail (.first h₃ (hallowed _ _)) |>.tail (.first h₄ (hallowed _ _)),fun u => ?_,
    hallowed _ _,rfl⟩
  by_cases hut : u = t
  · subst hut
    exact Function.update_self ..
  · exact (Function.update_of_ne hut _ _).trans (h u)

variable (hashOne P) in
/-- While all rest, a thread hands the node it has pushed to the collector. -/
theorem collects (hcalls : ∀ t, ∀ n ∈ calls t, (TrieUpdatesSink.shardIndex n).isSome)
    (hd : debugAssertions = true → Distinct Node.key calls) {σ : NodeDigest.Shared ι}
    {τ : TrieUpdatesSink.Shared ι} (h : τ.Resting calls) (hs : InStep σ τ) {t : ι} {n : Node}
    {rest : List Node} (ht : τ.todo t = n::rest) (hσ : σ.todo t = rest ∧ σ.pushers t = .idle) :
    ∃ τ', Reaches hashOne P debugAssertions (σ,τ) (σ,τ') ∧ τ'.Resting calls ∧ InStep σ τ' ∧
      τ'.todo = Function.update τ.todo t rest := by
  obtain ⟨hidle,done,ho⟩ := h
  have hn : n ∈ calls t := by
    rw [← ho.calls t,ht]
    exact List.mem_append_right _ List.mem_cons_self
  obtain ⟨shard,hshard⟩ := Option.isSome_iff_exists.mp (hcalls t n hn)
  let calling (sink : TrieUpdatesSink) (c : TrieUpdatesSink.Caller) (order : List (ι × Node)) :
      TrieUpdatesSink.Shared ι :=
    ⟨sink,Function.update τ.callers t c,Function.update τ.todo t rest,order⟩
  have hallowed : ∀ sink c order, InStep σ (calling sink c order) := by
    intro sink c order
    refine hs.of_others t (fun u hu => ?_) (.inl ⟨?_,hσ.2⟩)
    · simp [calling,Function.update_of_ne hu]
    · simp [calling,hσ.1]
  have hfree : ∀ u m, (calling τ.sink (.waiting n) τ.order).callers u = .locked m →
      TrieUpdatesSink.shardIndex m ≠ some shard := by
    intro u m hu
    have hum := (ne_of_update_eq (by simp) hu).2
    rw [hidle u] at hum
    cases hum
  have h₁ : TrieUpdatesSink.Step debugAssertions τ (calling τ.sink (.waiting n) τ.order) :=
    .call τ t n rest (hidle t) ht
  have h₂ : TrieUpdatesSink.Step debugAssertions (calling τ.sink (.waiting n) τ.order)
      (calling τ.sink (.locked n) (τ.order ++ [(t,n)])) := by
    have hstep : TrieUpdatesSink.Step debugAssertions (calling τ.sink (.waiting n) τ.order) _ :=
      .lock _ t n shard (Function.update_self ..) hshard hfree
    dsimp only [calling] at hstep
    rwa [Function.update_idem] at hstep
  have ho₁ : TrieUpdatesSink.Ordered calls (calling τ.sink (.waiting n) τ.order) done :=
    ho.call (hidle t) ht
  have ho₂ : TrieUpdatesSink.Ordered calls
      (calling τ.sink (.locked n) (τ.order ++ [(t,n)])) done := by
    have hlock := ho₁.lock hcalls (Function.update_self ..) hshard hfree
    dsimp only [calling] at hlock
    rwa [Function.update_idem] at hlock
  obtain ⟨sink,he,hh⟩ := ho₂.holds.push (hcalls t n hn) fun ha =>
    ho₂.key_not_mem (hd ha) (Function.update_self ..)
  have h₃ : TrieUpdatesSink.Step debugAssertions (calling τ.sink (.locked n) (τ.order ++ [(t,n)]))
      (calling sink .idle (τ.order ++ [(t,n)])) := by
    have hstep : TrieUpdatesSink.Step debugAssertions
        (calling τ.sink (.locked n) (τ.order ++ [(t,n)])) _ :=
      .leave _ t n (Function.update_self ..) (by rw [he])
    rw [he] at hstep
    dsimp only [calling] at hstep
    rwa [Function.update_idem] at hstep
  have ho₃ : TrieUpdatesSink.Ordered calls (calling sink .idle (τ.order ++ [(t,n)]))
      (done ++ [n]) := by
    have hleave := ho₂.leave (Function.update_self ..) hh
    dsimp only [calling] at hleave
    rwa [Function.update_idem] at hleave
  refine ⟨calling sink .idle (τ.order ++ [(t,n)]),Relation.ReflTransGen.refl
    |>.tail (.second h₁ (hallowed _ _ _)) |>.tail (.second h₂ (hallowed _ _ _))
    |>.tail (.second h₃ (hallowed _ _ _)),⟨fun u => ?_,_,ho₃⟩,hallowed _ _ _,rfl⟩
  by_cases hut : u = t
  · subst hut
    exact Function.update_self ..
  · exact (Function.update_of_ne hut _ _).trans (hidle u)

/-- Finitely many threads can emit all their nodes. -/
theorem exists_finished [Fintype ι]
    (hcalls : ∀ t, ∀ n ∈ calls t, (TrieUpdatesSink.shardIndex n).isSome)
    (hd : debugAssertions = true → Distinct Node.key calls) :
    ∃ s, Reaches hashOne P debugAssertions (start calls) s ∧ s.1.Finished ∧ s.2.Finished := by
  let Ready (s : NodeDigest.Shared ι × TrieUpdatesSink.Shared ι) : Prop :=
    s.1.Resting ∧ s.2.Resting calls ∧ s.2.todo = s.1.todo ∧ InStep s.1 s.2
  have hpass : ∀ s t n rest, Ready s → s.1.todo t = n::rest →
      ∃ s', Reaches hashOne P debugAssertions s s' ∧ Ready s' ∧
        s'.1.todo = Function.update s.1.todo t rest := by
    rintro ⟨σ,τ⟩ t n rest ⟨hσ,hτ,htodo,hs⟩ ht
    have ht' : τ.todo t = n::rest := (congrFun htodo t).trans ht
    obtain ⟨σ',hr,hσ',hs',hrest⟩ := pushes hashOne P debugAssertions hσ hs ht ⟨ht',hτ.1 t⟩
    have hnow : σ'.todo t = rest := by rw [hrest,Function.update_self]
    obtain ⟨τ',hr',hτ',hs'',hrest'⟩ := collects hashOne P hcalls hd hτ hs' ht' ⟨hnow,hσ' t⟩
    refine ⟨(σ',τ'),hr.trans hr',⟨hσ',hτ',?_,hs''⟩,hrest⟩
    rw [hrest',hrest]
    exact congrArg (fun f => Function.update f t rest) htodo
  have hstart : Ready (start calls) :=
    ⟨fun _ => rfl,⟨fun _ => rfl,[],.start⟩,rfl,fun _ => .inl ⟨rfl,rfl⟩⟩
  obtain ⟨s,hr,⟨hdigest,hcollector,htodo,-⟩,hdone⟩ := exists_drained hpass (start calls) hstart
  refine ⟨s,hr,fun t => ⟨hdigest t,hdone t⟩,fun t => ⟨hcollector.1 t,?_⟩⟩
  rw [htodo]
  exact hdone t

end Run

/-- In every interleaving no call of the collector panics, and once all nodes are emitted it holds
each of them once and the digest is that of the collected updates. So the parity check's comparison
of digests holds whenever its comparison of updates does, empty storage tries dropped or not. -/
theorem digest_of_collected [Fintype ι] [DecidableEq ι] (hashOne : UInt64 → List UInt8 → UInt64)
    (P : NibblePacking) (debugAssertions : Bool) {calls : ι → List Node}
    (hpath : ∀ t, ∀ n ∈ calls t, n.hashedAddress = none → n.path.isEmpty = false)
    (hd : Distinct Node.key calls) {σ : NodeDigest.Shared ι} {τ : TrieUpdatesSink.Shared ι}
    (h : Reaches hashOne P debugAssertions (start calls) (σ,τ)) :
    τ.Intact ∧ (σ.Finished → τ.Finished →
      ∃ u, τ.sink.intoTrieUpdates = some u ∧
        u.nodes = ∑ t, (calls t : Multiset Node) ∧
        (∀ it, Iterates u it → NodeDigest.ofTrieUpdates hashOne P it = σ.digest.snapshot) ∧
        ∀ v it, withoutEmptyStorageTries u = withoutEmptyStorageTries v →
          Iterates v it ∨ Iterates (withoutEmptyStorageTries v) it →
            NodeDigest.ofTrieUpdates hashOne P it = σ.digest.snapshot) := by
  obtain ⟨hdigest,hcollector⟩ := PairStep.projects h
  have hcalls : ∀ t, ∀ n ∈ calls t, (TrieUpdatesSink.shardIndex n).isSome := fun t n hn =>
    (TrieUpdatesSink.shardIndex_isSome_iff n).mpr (hpath t n hn)
  obtain ⟨hintact,done,ho⟩ := TrieUpdatesSink.Ordered.of_reaches_distinct hcalls (fun _ => hd)
    hcollector
  refine ⟨hintact,fun hσ hτ => ?_⟩
  obtain ⟨hi,hh⟩ := ho.finished hτ
  let ns := τ.order.map Prod.snd
  have hkeys : (ns.map Node.key).Nodup := hd.nodup fun t => by rw [hi t]
  have hsum : (ns : Multiset Node) = ∑ t, (calls t : Multiset Node) := hi.coe_eq_sum
  have hnodes : (TrieUpdates.collect ns).nodes = ns := TrieUpdates.nodes_collect hkeys
  have hsnapshot := NodeDigest.snapshot_eq hdigest hσ hsum
  refine ⟨.collect ns,hh.intoTrieUpdates_eq,hnodes.trans hsum,fun it hit => ?_,
    fun v it he hit => ?_⟩
  · rw [NodeDigest.ofTrieUpdates_eq hashOne P hit hnodes]
    exact hsnapshot.symm
  · have hv : v.nodes = ns := by
      rw [← nodes_withoutEmpty,← he,nodes_withoutEmpty,hnodes]
    rcases hit with hit | hit
    · rw [NodeDigest.ofTrieUpdates_eq hashOne P hit hv]
      exact hsnapshot.symm
    · rw [NodeDigest.ofTrieUpdates_eq hashOne P hit ((nodes_withoutEmpty v).trans hv)]
      exact hsnapshot.symm

/-- Two threads, each with a node of its own trie. -/
theorem digest_of_collected_sample :
    ∃ (σ : NodeDigest.Shared Bool) (τ : TrieUpdatesSink.Shared Bool) (u : TrieUpdates),
      Reaches (fun _ _ => 7) .standard true (start (TrieUpdatesSink.sampleCalls 1 2)) (σ,τ) ∧
        τ.sink.intoTrieUpdates = some u ∧
          NodeDigest.ofTrieUpdates (fun _ _ => 7) .standard u.iteration = σ.digest.snapshot := by
  have hpath : ∀ t, ∀ n ∈ TrieUpdatesSink.sampleCalls 1 2 t, n.hashedAddress = none →
      n.path.isEmpty = false := by
    intro t n hn _
    cases t <;> obtain rfl := List.mem_singleton.mp hn <;> rfl
  have hd : Distinct Node.key (TrieUpdatesSink.sampleCalls 1 2) := by
    refine ⟨by decide,fun t u htu a ha b hb => ?_⟩
    cases t <;> cases u <;> obtain rfl := List.mem_singleton.mp ha <;>
      obtain rfl := List.mem_singleton.mp hb <;> first | exact absurd rfl htu | decide
  have hrun : ∃ s, Reaches (fun _ _ => 7) .standard true
      (start (TrieUpdatesSink.sampleCalls 1 2)) s ∧ s.1.Finished ∧ s.2.Finished :=
    exists_finished (fun t n hn => (TrieUpdatesSink.shardIndex_isSome_iff n).mpr (hpath t n hn))
      fun _ => hd
  obtain ⟨⟨σ,τ⟩,hr,hσ,hτ⟩ := hrun
  obtain ⟨u,hu,-,hdigest,-⟩ :=
    (digest_of_collected (fun _ _ => 7) .standard true hpath hd hr).2 hσ hτ
  exact ⟨σ,τ,u,hr,hu,hdigest _ u.iterates⟩

end TeeSink
end TrieRebuild
