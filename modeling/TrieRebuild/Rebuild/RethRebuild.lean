import TrieRebuild.Foundation.Loop
import TrieRebuild.Rebuild.WriteUpdates

/-! `reth_rebuild`: clear the trie tables, then walk, write and commit chunk after chunk, each walk
resumed from the state the one before returned. -/
namespace TrieRebuild
open Foundation

/-- What a walk returns: a chunk and the state to resume from, or the last chunk and the root. -/
inductive StateRootProgress (I : Type)
  | progress (next : I) (entries : ℕ) (updates : TrieUpdates)
  | complete (root : B256) (entries : ℕ) (updates : TrieUpdates)

namespace StateRootProgress
variable {I : Type}

def next : StateRootProgress I → Option I
  | progress next _ _ => some next
  | complete _ _ _ => none

def root : StateRootProgress I → Option B256
  | progress _ _ _ => none
  | complete root _ _ => some root

def entries : StateRootProgress I → ℕ
  | progress _ entries _ => entries
  | complete _ entries _ => entries

def updates : StateRootProgress I → TrieUpdates
  | progress _ _ updates => updates
  | complete _ _ updates => updates

end StateRootProgress

/-- Outcome of a rebuild. -/
structure Rebuilt where
  root : B256
  entries : ℕ
  written : ℕ
  chunks : ℕ
  deriving DecidableEq

/-- One walk: the state it was resumed from, and what it returned. -/
abbrev Walk (I : Type) := Option I × StateRootProgress I

/-- The variables of the loop, the committed tables and the walks so far. `logged` holds the totals
of each log line; the elapsed time it prints is left out. -/
structure RebuildLoop (I K S : Type) where
  state : Option I := none
  totals : Rebuilt := ⟨B256.zero,0,0,0⟩
  tables : TrieTables K S
  walks : List (Walk I) := []
  logged : List Rebuilt := []

/-- Reading the settings entry in a transaction of its own. -/
def readSettings {ε K S : Type} : Tx ε (TrieTables K S) Unit := do
  Tx.touch
  Tx.touch

/-- Empties the trie tables. -/
def clearTrieTables {ε K S : Type} : Tx ε (TrieTables K S) Unit :=
  Tx.transact do
    Tx.modify fun T => { T with accounts := ∅ }
    Tx.modify fun T => { T with storages := ∅ }

section Loop
variable {ε W I K S : Type} [DecidableEq K] [DecidableEq S]
variable (R : Reth K S) (A : TrieTableAdapter K S)

/-- The loop variables after a committed chunk. -/
def RebuildLoop.advance (s : RebuildLoop I K S) (progress : StateRootProgress I) (written : ℕ)
    (T : TrieTables K S) : RebuildLoop I K S :=
  let totals := { s.totals with
    entries := s.totals.entries+progress.entries
    written := s.totals.written+written
    chunks := s.totals.chunks+1 }
  { state := progress.next
    totals := totals
    tables := T
    walks := s.walks ++ [(s.state,progress)]
    logged := if totals.chunks % 100 = 0 then s.logged ++ [totals] else s.logged }

/-- One transaction of the loop: the walk over the tables as they are, and the write of what it
found. `other` wraps the walk's error. -/
def rebuildChunk (walk : Option I → TrieTables K S → Except W (StateRootProgress I)) (other : W → ε)
    (state : Option I) : Tx ε (TrieTables K S) (StateRootProgress I × ℕ) :=
  Tx.transact do
    let progress ← Tx.inspect fun T => (walk state T).mapError other
    let written ← writeTrieUpdatesWith R A progress.updates
    pure (progress,written)

/-- Back to the head of the loop, or out of it with the root. -/
def RebuildLoop.leave (s : RebuildLoop I K S) (root : Option B256) :
    RebuildLoop I K S ⊕ (Except ε Rebuilt × RebuildLoop I K S) :=
  match root with
  | none => .inl s
  | some root => .inr (.ok ⟨root,s.totals.entries,s.totals.written,s.totals.chunks⟩,s)

/-- The loop body. The transaction of chunk `i` runs under the faults `faults i`. -/
def rebuildBody (walk : Option I → TrieTables K S → Except W (StateRootProgress I)) (other : W → ε)
    (faults : ℕ → ℕ → Option ε) (s : RebuildLoop I K S) :
    RebuildLoop I K S ⊕ (Except ε Rebuilt × RebuildLoop I K S) :=
  match (rebuildChunk R A walk other s.state).run (faults s.totals.chunks) s.tables with
  | (.error e,T) => .inr (.error e,{ s with state := none, tables := T })
  | (.ok (progress,written),T) => (s.advance progress written T).leave progress.root

omit A in
/-- `reth_rebuild` over given tables. The first transaction reads the settings entry, the second
clears the tables; what the walker returns may depend on the adapter and the threshold. -/
def rethRebuild
    (rootWithProgress : TrieTableAdapter K S → Option UInt64 → Option I → TrieTables K S →
      Except W (StateRootProgress I))
    (other : W → ε) (settings : Option (List UInt8)) (threshold : Option UInt64)
    (faults : ℕ → ℕ → Option ε) (fuel : ℕ) (T : TrieTables K S) :
    Option (Except ε Rebuilt × RebuildLoop I K S) :=
  let A := R.adapter (R.usesPackedTrieKeys settings)
  match (readSettings : Tx ε (TrieTables K S) Unit).run (faults 0) T with
  | (.error e,T) => some (.error e,{ tables := T })
  | (.ok _,T) =>
    match (clearTrieTables : Tx ε (TrieTables K S) Unit).run (faults 1) T with
    | (.error e,T) => some (.error e,{ tables := T })
    | (.ok _,T) =>
      loop (rebuildBody R A (rootWithProgress A threshold) other fun i => faults (i+2)) fuel
        { tables := T }

end Loop
end TrieRebuild
