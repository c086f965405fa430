import TrieRebuild.Rebuild.Upserts

/-! The writer loop of `MdbxWriteSink`: it collects received nodes into a chunk and commits the
chunk in a transaction of its own once it holds enough of them. -/
namespace TrieRebuild
open Foundation

/-- What the writer committed. -/
structure Written where
  nodes : ℕ := 0
  chunks : ℕ := 0
  deriving DecidableEq

/-- How the writer thread ends. -/
inductive Outcome (ε : Type)
  | ok (written : Written)
  | err (e : ε)
  | panicked
  deriving DecidableEq

/-- The writer's variables, with the tables it commits to. -/
structure Writer (K S : Type) where
  tables : TrieTables K S
  chunk : TrieUpdates := {}
  pending : ℕ := 0
  written : Written := {}

section Loop
variable {ε K S : Type} [DecidableEq K] [DecidableEq S]
variable (R : Reth K S) (packed : Bool)

def commit (chunk : TrieUpdates) : Tx ε (TrieTables K S) ℕ :=
  Tx.transact (writeTrieUpdatesWith R (R.adapter packed) chunk)

namespace Writer

/-- Takes one node into the chunk; also returns the node it replaces there. -/
def receive (w : Writer K S) (n : Node) : Option BranchNodeCompact × Writer K S :=
  let (prev,chunk) := w.chunk.insert n
  (prev,{ w with chunk, pending := w.pending+1 })

/-- Commits the chunk and starts a new one. The calls of the `k`-th commit fail as `faults k`
says; an error ends the loop. -/
def commitChunk (faults : ℕ → ℕ → Option ε) (w : Writer K S) : Option ε × Writer K S :=
  let (r,tables) := (commit R packed w.chunk).run (faults w.written.chunks) w.tables
  match r with
  | .ok nodes => (none,{ tables, written := ⟨w.written.nodes+nodes,w.written.chunks+1⟩ })
  | .error e => (some e,{ w with tables })

end Writer

variable (chunkNodes : ℕ) (debugAssertions : Bool) (faults : ℕ → ℕ → Option ε)

/-- The end of the loop: the last chunk, if it holds anything. -/
def flushChunk (w : Writer K S) : Outcome ε × TrieTables K S :=
  if w.pending > 0 then
    match w.commitChunk R packed faults with
    | (none,w) => (.ok w.written,w.tables)
    | (some e,w) => (.err e,w.tables)
  else (.ok w.written,w.tables)

/-- The loop over the received nodes. -/
def writeLoop (w : Writer K S) : List Node → Outcome ε × TrieTables K S
  | [] => flushChunk R packed faults w
  | n::rs =>
    match w.receive n with
    | (prev,w) =>
      if debugAssertions && prev.isSome then (.panicked,w.tables)
      else if w.pending ≥ chunkNodes then
        match w.commitChunk R packed faults with
        | (none,w) => writeLoop w rs
        | (some e,w) => (.err e,w.tables)
      else writeLoop w rs

/-- What is left of the loop while a full chunk is being committed. -/
def afterCommit (w : Writer K S) (rs : List Node) : Outcome ε × TrieTables K S :=
  match w.commitChunk R packed faults with
  | (none,w) => writeLoop R packed chunkNodes debugAssertions faults w rs
  | (some e,w) => (.err e,w.tables)

/-- The loop body: take the node, check the assertion, commit if the chunk is full. -/
theorem writeLoop_cons (w : Writer K S) (n : Node) (rs : List Node) :
    writeLoop R packed chunkNodes debugAssertions faults w (n::rs) =
      if debugAssertions && (w.receive n).1.isSome then (.panicked,(w.receive n).2.tables)
      else if (w.receive n).2.pending ≥ chunkNodes then
        afterCommit R packed chunkNodes debugAssertions faults (w.receive n).2 rs
      else writeLoop R packed chunkNodes debugAssertions faults (w.receive n).2 rs := rfl

/-- `write_chunks` on the nodes its receiver yields: how it ends and the tables it leaves. -/
def writeChunks (T : TrieTables K S) (rs : List Node) : Outcome ε × TrieTables K S :=
  writeLoop R packed chunkNodes debugAssertions faults { tables := T } rs

end Loop

/-- Table entries a chunk of nodes is written as. -/
def chunkEntries (chunk : List Node) : ℕ :=
  ((TrieUpdates.collect chunk).nodes.filter fun n => n.storable).card

theorem chunkEntries_of_nodup {chunk : List Node} (h : (chunk.map Node.key).Nodup) :
    chunkEntries chunk = (chunk.filter Node.storable).length := by
  rw [chunkEntries,TrieUpdates.nodes_collect h]
  simp

@[simp] theorem chunkEntries_nil : chunkEntries [] = 0 := by
  rw [chunkEntries_of_nodup] <;> simp

section Abstract
variable {ε K S : Type} [DecidableEq K] [DecidableEq S]
variable (R : Reth K S) (packed : Bool) (T : TrieTables K S)

/-- The writer after some committed chunks and the nodes received since. -/
def Writer.after (chunks : List (List Node)) (tail : List Node) : Writer K S where
  tables := T.overlaid (R.adapter packed) chunks.flatten
  chunk := TrieUpdates.collect tail
  pending := tail.length
  written := ⟨(chunks.map chunkEntries).sum,chunks.length⟩

/-- Receiving extends the open chunk and reports a node of the same key in it. -/
theorem Writer.receive_after (chunks : List (List Node)) (tail : List Node) (n : Node) :
    (Writer.after R packed T chunks tail).receive n =
      (latest (tail.map Node.binding) n.key,Writer.after R packed T chunks (tail ++ [n])) := by
  simp only [receive,after,TrieUpdates.insert_fst,TrieUpdates.get_collect,
    TrieUpdates.collect_concat,List.length_append,List.length_singleton]

theorem latest_isSome_iff (tail : List Node) (n : Node) :
    (latest (tail.map Node.binding) n.key).isSome ↔ n.key ∈ tail.map Node.key := by
  rw [← Option.ne_none_iff_isSome,ne_eq,latest_eq_none_iff,Node.map_fst_binding,not_not]

/-- Database calls made in committing a chunk to given tables. -/
def commitCalls (T : TrieTables K S) (chunk : List Node) : ℕ :=
  (commit R packed (TrieUpdates.collect chunk) : Tx ε (TrieTables K S) ℕ).calls T

/-- Opening the transaction and committing it are calls too. -/
theorem two_le_commitCalls (chunk : List Node) :
    2 ≤ commitCalls (ε := ε) R packed T chunk := by
  obtain ⟨c,hy⟩ := writeCollected_yields (ε := ε) (R.adapter packed) R chunk T
  have ht : (commit R packed (TrieUpdates.collect chunk) : Tx ε (TrieTables K S) ℕ).Yields T
      (chunkEntries chunk) (c+2) (T.overlaid (R.adapter packed) chunk) := hy.transact
  rw [commitCalls,ht.calls_eq]
  omega

theorem commit_yields (chunk : List Node) :
    (commit R packed (TrieUpdates.collect chunk) : Tx ε (TrieTables K S) ℕ).Yields T
      (chunkEntries chunk) (commitCalls (ε := ε) R packed T chunk)
      (T.overlaid (R.adapter packed) chunk) := by
  obtain ⟨c,hy⟩ := writeCollected_yields (ε := ε) (R.adapter packed) R chunk T
  have ht : (commit R packed (TrieUpdates.collect chunk) : Tx ε (TrieTables K S) ℕ).Yields T
      (chunkEntries chunk) (c+2) (T.overlaid (R.adapter packed) chunk) := hy.transact
  rw [commitCalls,ht.calls_eq]
  exact ht

/-- A commit whose calls all succeed adds the open chunk to the committed ones. -/
theorem Writer.commitChunk_ok {faults : ℕ → ℕ → Option ε} (chunks : List (List Node))
    (tail : List Node)
    (h : ∀ i < commitCalls (ε := ε) R packed (T.overlaid (R.adapter packed) chunks.flatten) tail,
      faults chunks.length i = none) :
    (Writer.after R packed T chunks tail).commitChunk R packed faults =
      (none,Writer.after R packed T (chunks ++ [tail]) []) := by
  have hy := commit_yields (ε := ε) R packed (T.overlaid (R.adapter packed) chunks.flatten) tail
  simp only [commitChunk,after,hy.run_ok h]
  simp [TrieTables.overlaid_append]

/-- A commit with a failing call returns its error and leaves the tables at the committed chunks. -/
theorem Writer.commitChunk_err {faults : ℕ → ℕ → Option ε} (chunks : List (List Node))
    (tail : List Node)
    (h : ∃ i < commitCalls (ε := ε) R packed (T.overlaid (R.adapter packed) chunks.flatten) tail,
      faults chunks.length i ≠ none) :
    ∃ e, (∃ i < commitCalls (ε := ε) R packed (T.overlaid (R.adapter packed) chunks.flatten) tail,
        faults chunks.length i = some e) ∧
      (Writer.after R packed T chunks tail).commitChunk R packed faults =
        (some e,Writer.after R packed T chunks tail) := by
  have hy := commit_yields (ε := ε) R packed (T.overlaid (R.adapter packed) chunks.flatten) tail
  obtain ⟨e,hi,he⟩ := hy.run_error h
  refine ⟨e,hi,?_⟩
  simp only [commitChunk,after,he]

/-- A commit either succeeds and closes the chunk or fails and changes nothing. -/
theorem Writer.commitChunk_cases (faults : ℕ → ℕ → Option ε) (chunks : List (List Node))
    (tail : List Node) :
    (∀ i < commitCalls (ε := ε) R packed (T.overlaid (R.adapter packed) chunks.flatten) tail,
        faults chunks.length i = none) ∧
      (Writer.after R packed T chunks tail).commitChunk R packed faults =
        (none,Writer.after R packed T (chunks ++ [tail]) []) ∨
      ∃ e, (∃ i < commitCalls (ε := ε) R packed
          (T.overlaid (R.adapter packed) chunks.flatten) tail, faults chunks.length i = some e) ∧
        (Writer.after R packed T chunks tail).commitChunk R packed faults =
          (some e,Writer.after R packed T chunks tail) := by
  by_cases h : ∃ i < commitCalls (ε := ε) R packed
      (T.overlaid (R.adapter packed) chunks.flatten) tail, faults chunks.length i ≠ none
  · exact .inr (Writer.commitChunk_err R packed T chunks tail h)
  · push Not at h
    exact .inl ⟨h,Writer.commitChunk_ok R packed T chunks tail h⟩

end Abstract
end TrieRebuild
