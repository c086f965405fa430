import TrieRebuild.Sink.LastWriter
import TrieRebuild.Sink.TrieUpdatesSink

/-! What the debug assertions of the two collecting sinks catch. `TrieUpdatesSink` sees every key
emitted twice; the writer loop starts each chunk with empty maps and sees a key twice only within
one chunk. -/
namespace TrieRebuild
open Foundation

/-- Some account or state trie node is emitted more than once. -/
def Repeats (ns : List Node) : Prop := ∃ k, 1 < (ns.map Node.key).count k

/-- Some node is emitted at two positions that fall into one chunk. -/
def RepeatsInChunk (c : ℕ) (ns : List Node) : Prop :=
  ∃ i j k, i < j ∧ i/c = j/c ∧ (ns.map Node.key)[i]? = some k ∧ (ns.map Node.key)[j]? = some k

theorem not_repeats_iff (ns : List Node) : ¬ Repeats ns ↔ (ns.map Node.key).Nodup := by
  rw [Repeats,List.nodup_iff_count_le_one]
  push Not
  rfl

theorem repeatsInChunk_iff {c : ℕ} (hc : 0 < c) (ns : List Node) :
    RepeatsInChunk c ns ↔ ∃ k, ¬ ((chunkAt c ns k).map Node.key).Nodup := by
  simp only [map_chunkAt]
  exact (not_nodup_chunkAt_iff hc _).symm

/-- A chunk is a part of the stream. -/
theorem RepeatsInChunk.repeats {c : ℕ} (hc : 0 < c) {ns : List Node} (h : RepeatsInChunk c ns) :
    Repeats ns := by
  obtain ⟨k,hk⟩ := (repeatsInChunk_iff hc ns).mp h
  by_contra hn
  exact hk (((not_repeats_iff ns).mp hn).sublist ((chunkAt_sublist c k ns).map _))

section Writer
variable {ε K S : Type} [DecidableEq K] [DecidableEq S]
variable (R : Reth K S) (packed : Bool) (T : TrieTables K S)

/-- The writer loop of a debug build, over a database without errors, hits its assertion. -/
def WriterRejects (chunkNodes : ℕ) (ns : List Node) : Prop :=
  (writeChunks R packed (max chunkNodes 1) true (fun _ => (Tx.noFault : ℕ → Option ε)) T ns).1 =
    .panicked

variable {R packed T}

/-- A node whose key the open chunk holds ends the loop. -/
theorem writeLoop_repeated {c : ℕ} {faults : ℕ → ℕ → Option ε} (chunks : List (List Node))
    {tail : List Node} {n : Node} (rest : List Node) (hn : n.key ∈ tail.map Node.key) :
    (writeLoop R packed c true faults (Writer.after R packed T chunks tail) (n::rest)).1 =
      .panicked := by
  have hprev := (latest_isSome_iff tail n).mpr hn
  rw [writeLoop_cons,Writer.receive_after,hprev,Bool.true_and,if_pos rfl]

/-- A stream that repeats a key within a chunk is not written to its end. -/
theorem writeChunks_panics (packed : Bool) {c : ℕ} (hc : 0 < c) {ns : List Node}
    (h : ∃ k, ¬ ((chunkAt c ns k).map Node.key).Nodup) (rest : List Node) :
    (writeChunks R packed c true (fun _ => (Tx.noFault : ℕ → Option ε)) T (ns ++ rest)).1 =
      .panicked := by
  induction ns using List.reverseRecOn generalizing rest with
  | nil =>
    obtain ⟨k,hk⟩ := h
    exact absurd (by simp [chunkAt]) hk
  | append_singleton ns n ih =>
    rw [List.append_assoc,List.singleton_append]
    by_cases hns : ∃ k, ¬ ((chunkAt c ns k).map Node.key).Nodup
    · exact ih hns (n::rest)
    · -- the chunks were intact so far, and the last node repeats a key of the open one
      push Not at hns
      obtain ⟨chunks,tail,hch,hrun⟩ := writeLoop_holds R packed c true
        (fun _ => (Tx.noFault : ℕ → Option ε)) T hc ns (fun _ _ _ _ => rfl) fun k _ _ => hns k
      obtain ⟨k,hk⟩ := h
      rw [chunkAt_concat hc] at hk
      split_ifs at hk with hlen
      · have htail := hns k
        rw [← hlen,← hch.length_chunks,hch.tail_eq] at hk htail
        rw [hrun]
        apply writeLoop_repeated
        by_contra hn
        apply hk
        rw [List.map_append]
        exact htail.append (List.nodup_singleton _) (by simpa using hn)
      · exact absurd (hns k) hk

/-- The writer rejects exactly what repeats a key within a chunk. -/
theorem writerRejects_iff (chunkNodes : ℕ) (ns : List Node) :
    WriterRejects (ε := ε) R packed T chunkNodes ns ↔ RepeatsInChunk (max chunkNodes 1) ns := by
  have hc : 0 < max chunkNodes 1 := by omega
  rw [repeatsInChunk_iff hc]
  constructor
  · intro h
    by_contra hn
    push Not at hn
    obtain ⟨chunks,tail,-,hrun⟩ := writeChunks_ok R packed _ true
      (fun _ => (Tx.noFault : ℕ → Option ε)) T hc ns (fun _ _ _ _ => rfl) fun k _ => hn k
    rw [WriterRejects,hrun] at h
    cases h
  · intro h
    have hp := writeChunks_panics (ε := ε) (R := R) (T := T) packed hc h []
    rwa [List.append_nil] at hp

end Writer

namespace TrieUpdatesSink

/-- A stream hits the assertion of a sink in a debug build. -/
def Rejects (ns : List Node) : Prop :=
  ∃ hashedAddress path, (feed true {} ns).1 = some (.emittedTwice hashedAddress path)

theorem feed_append (debugAssertions : Bool) (s : TrieUpdatesSink) (ns ms : List Node) :
    feed debugAssertions s (ns ++ ms) =
      match feed debugAssertions s ns with
      | (none,s') => feed debugAssertions s' ms
      | (some p,s') => (some p,s') := by
  induction ns generalizing s with
  | nil => rfl
  | cons n ns ih =>
    rw [List.cons_append,feed,feed]
    cases h : onBranchNode debugAssertions s n with
    | mk p s' =>
      cases p with
      | none => exact ih s'
      | some p => rfl

theorem feed_repeated {ns : List Node} (hi : ∀ n ∈ ns, (shardIndex n).isSome)
    (h : ¬ (ns.map Node.key).Nodup) : Rejects ns := by
  induction ns using List.reverseRecOn with
  | nil => exact absurd List.nodup_nil h
  | append_singleton ns n ih =>
    have hns : ∀ m ∈ ns, (shardIndex m).isSome := fun m hm => hi m (List.mem_append_left _ hm)
    by_cases hn : (ns.map Node.key).Nodup
    · obtain ⟨s,hs,hh⟩ := feed_holds hns fun (_ : true = true) => hn
      have hm : n.key ∈ ns.map Node.key := by
        by_contra hm
        apply h
        rw [List.map_append]
        exact hn.append (List.nodup_singleton _) (by simpa using hm)
      have hp := hh.push_repeated (hi n (List.mem_append_right _ List.mem_cons_self)) hm
      refine ⟨n.hashedAddress,n.path,?_⟩
      rw [feed_append,hs]
      dsimp only
      rw [feed]
      cases ho : onBranchNode true s n with
      | mk p s' =>
        rw [ho] at hp
        obtain rfl : p = _ := hp
        rfl
    · obtain ⟨a,p,hap⟩ := ih hns hn
      refine ⟨a,p,?_⟩
      rw [feed_append]
      cases hf : feed true {} ns with
      | mk q s' =>
        rw [hf] at hap
        obtain rfl : q = _ := hap
        rfl

/-- The sink rejects exactly what repeats a key. -/
theorem rejects_iff {ns : List Node} (hi : ∀ n ∈ ns, (shardIndex n).isSome) :
    Rejects ns ↔ Repeats ns := by
  constructor
  · rintro ⟨a,p,hap⟩
    by_contra hn
    obtain ⟨s,hs,-⟩ := feed_holds hi fun (_ : true = true) => (not_repeats_iff ns).mp hn
    rw [hs] at hap
    cases hap
  · intro h
    exact feed_repeated hi fun hn => (not_repeats_iff ns).mpr hn h

end TrieUpdatesSink

/-- Both sinks reject exactly the streams that emit a node twice, as long as a stream that does
emits some node twice within one chunk. -/
theorem sinks_reject_repeats_iff {ε K S : Type} [DecidableEq K] [DecidableEq S] (R : Reth K S)
    (packed : Bool) (T : TrieTables K S) (chunkNodes : ℕ) (ns : List Node)
    (hpath : ∀ n ∈ ns, n.path.isEmpty = false) :
    ((WriterRejects (ε := ε) R packed T chunkNodes ns ↔ Repeats ns) ∧
        (TrieUpdatesSink.Rejects ns ↔ Repeats ns)) ↔
      (¬ Repeats ns ∨ RepeatsInChunk (max chunkNodes 1) ns) := by
  have hi : ∀ n ∈ ns, (TrieUpdatesSink.shardIndex n).isSome := fun n hn =>
    (TrieUpdatesSink.shardIndex_isSome_iff n).mpr fun _ => hpath n hn
  have hc : RepeatsInChunk (max chunkNodes 1) ns → Repeats ns := fun h => h.repeats (by omega)
  rw [writerRejects_iff,TrieUpdatesSink.rejects_iff hi,and_iff_left Iff.rfl]
  tauto

open ReferenceReth in
theorem sinks_reject_repeats_iff_sample :
    (WriterRejects (ε := Unit) reth false {} 2 [sampleNode none 1,sampleNode none 1] ↔
        Repeats [sampleNode none 1,sampleNode none 1]) ∧
      (TrieUpdatesSink.Rejects [sampleNode none 1,sampleNode none 1] ↔
        Repeats [sampleNode none 1,sampleNode none 1]) := by
  apply (sinks_reject_repeats_iff reth false {} 2 [sampleNode none 1,sampleNode none 1] (by decide)).mpr
  exact .inr ⟨0,1,(sampleNode none 1).key,by decide,by decide,rfl,rfl⟩

open ReferenceReth in
/-- A node emitted twice on both sides of a commit: the other sink stops, the writer goes on. -/
theorem writer_misses_repeat :
    Repeats [sampleNode none 1,sampleNode none 1] ∧
      TrieUpdatesSink.Rejects [sampleNode none 1,sampleNode none 1] ∧
      ¬ WriterRejects (ε := Unit) reth false {} 1 [sampleNode none 1,sampleNode none 1] := by
  have hr : Repeats [sampleNode none 1,sampleNode none 1] := ⟨(sampleNode none 1).key,by decide⟩
  refine ⟨hr,(TrieUpdatesSink.rejects_iff (by decide)).mpr hr,?_⟩
  rw [writerRejects_iff]
  rintro ⟨i,j,k,hij,hdiv,-⟩
  simp at hdiv
  omega

end TrieRebuild
