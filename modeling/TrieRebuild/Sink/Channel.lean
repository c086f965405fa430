import TrieRebuild.Sink.WriterLoop

/-! `MdbxWriteSink` as a step system: workers that send nodes over a bounded channel, the writer
thread at the other end, and `finish`, which closes the channel and joins the writer. -/
namespace TrieRebuild
open Foundation

/-- Nodes in flight between the workers and the writer before a worker blocks. -/
def channelCapacity : ℕ := 1 <<< 16

/-- A worker outside of `on_branch_node`, in its `send`, or unwound by a failed one. -/
inductive Worker
  | running
  | sending (n : Node)
  | panicked

/-- Where the writer thread stands: waiting to receive, with a node in hand, committing a full
chunk, committing the last one, back from the loop, or gone and its receiver with it. -/
inductive WriterPhase (ε K S : Type)
  | receiving (w : Writer K S)
  | received (w : Writer K S) (n : Node)
  | committing (w : Writer K S)
  | flushing (w : Writer K S)
  | returned (outcome : Outcome ε) (tables : TrieTables K S)
  | ended (outcome : Outcome ε) (tables : TrieTables K S)

/-- Where `finish` stands. -/
inductive Finish (ε : Type)
  | notCalled
  | joining
  | returned (result : Except ε Written)
  | panicked

namespace WriterPhase
variable {ε K S : Type}

/-- The committed tables. -/
def tables : WriterPhase ε K S → TrieTables K S
  | receiving w => w.tables
  | received w _ => w.tables
  | committing w => w.tables
  | flushing w => w.tables
  | returned _ tables => tables
  | ended _ tables => tables

/-- The nodes the writer holds uncommitted. -/
def held : WriterPhase ε K S → Multiset Node
  | receiving w => w.chunk.nodes
  | received w n => w.chunk.nodes+{n}
  | committing w => w.chunk.nodes
  | flushing w => w.chunk.nodes
  | returned _ _ => 0
  | ended _ _ => 0

/-- The writer owns the receiver until it is gone. -/
def receiverAlive : WriterPhase ε K S → Bool
  | ended _ _ => false
  | _ => true

end WriterPhase

/-- `join().expect(..)`: the writer's result, or its panic passed on. -/
def Outcome.joined {ε : Type} : Outcome ε → Finish ε
  | .ok written => .returned (.ok written)
  | .err e => .returned (.error e)
  | .panicked => .panicked

/-- The sink with its channel and threads. `called` and `accepted` record the nodes passed to
`on_branch_node` and the nodes the channel took, in order. -/
structure MdbxWriteSink (ι ε K S : Type) where
  workers : ι → Worker
  channel : List Node
  senderOpen : Bool
  writer : WriterPhase ε K S
  finish : Finish ε
  called : List Node
  accepted : List Node

namespace MdbxWriteSink
variable {ι ε K S : Type}

def tables (σ : MdbxWriteSink ι ε K S) : TrieTables K S := σ.writer.tables

/-- A sink just created over some tables. -/
def start (T : TrieTables K S) : MdbxWriteSink ι ε K S where
  workers _ := .running
  channel := []
  senderOpen := true
  writer := .receiving { tables := T }
  finish := .notCalled
  called := []
  accepted := []

variable [DecidableEq ι] [DecidableEq K] [DecidableEq S]
variable (R : Reth K S) (packed : Bool) (chunkNodes : ℕ) (debugAssertions : Bool)
variable (faults : ℕ → ℕ → Option ε)

/-- The loop body up to the commit. -/
def takeNode (w : Writer K S) (n : Node) : WriterPhase ε K S :=
  let (prev,w) := w.receive n
  if debugAssertions && prev.isSome then .returned .panicked w.tables
  else if w.pending ≥ chunkNodes then .committing w
  else .receiving w

/-- The commit inside the loop. -/
def commitFull (w : Writer K S) : WriterPhase ε K S :=
  match w.commitChunk R packed faults with
  | (none,w) => .receiving w
  | (some e,w) => .returned (.err e) w.tables

/-- The commit after the loop. -/
def commitLast (w : Writer K S) : WriterPhase ε K S :=
  match w.commitChunk R packed faults with
  | (none,w) => .returned (.ok w.written) w.tables
  | (some e,w) => .returned (.err e) w.tables

/-- The loop's end, once the channel is closed and drained. -/
def leaveLoop (w : Writer K S) : WriterPhase ε K S :=
  if w.pending > 0 then .flushing w else .returned (.ok w.written) w.tables

/-- One step of one of the threads. -/
inductive Step : MdbxWriteSink ι ε K S → MdbxWriteSink ι ε K S → Prop
  | call (σ) (i : ι) (n : Node) (hw : σ.workers i = .running) (ho : σ.senderOpen = true) :
      Step σ { σ with
        workers := Function.update σ.workers i (.sending n)
        called := σ.called ++ [n] }
  | send (σ) (i : ι) (n : Node) (hw : σ.workers i = .sending n)
      (ha : σ.writer.receiverAlive = true) (hroom : σ.channel.length < channelCapacity) :
      Step σ { σ with
        workers := Function.update σ.workers i .running
        channel := σ.channel ++ [n]
        accepted := σ.accepted ++ [n] }
  | sendFails (σ) (i : ι) (n : Node) (hw : σ.workers i = .sending n)
      (ha : σ.writer.receiverAlive = false) :
      Step σ { σ with workers := Function.update σ.workers i .panicked }
  | receive (σ) (w : Writer K S) (n : Node) (rest : List Node) (hp : σ.writer = .receiving w)
      (hc : σ.channel = n::rest) :
      Step σ { σ with writer := .received w n, channel := rest }
  | insert (σ) (w : Writer K S) (n : Node) (hp : σ.writer = .received w n) :
      Step σ { σ with writer := takeNode chunkNodes debugAssertions w n }
  | commit (σ) (w : Writer K S) (hp : σ.writer = .committing w) :
      Step σ { σ with writer := commitFull R packed faults w }
  | hangUp (σ) (w : Writer K S) (hp : σ.writer = .receiving w) (hc : σ.channel = [])
      (ho : σ.senderOpen = false) :
      Step σ { σ with writer := leaveLoop w }
  | flush (σ) (w : Writer K S) (hp : σ.writer = .flushing w) :
      Step σ { σ with writer := commitLast R packed faults w }
  | exit (σ) (outcome : Outcome ε) (T : TrieTables K S) (hp : σ.writer = .returned outcome T) :
      Step σ { σ with writer := .ended outcome T, channel := [] }
  | finish (σ) (hf : σ.finish = .notCalled) (hw : ∀ i n, σ.workers i ≠ .sending n) :
      Step σ { σ with senderOpen := false, finish := .joining }
  | join (σ) (outcome : Outcome ε) (T : TrieTables K S) (hf : σ.finish = .joining)
      (hp : σ.writer = .ended outcome T) :
      Step σ { σ with finish := outcome.joined }

/-- States on some interleaving from a state. -/
abbrev Reaches : MdbxWriteSink ι ε K S → MdbxWriteSink ι ε K S → Prop :=
  Relation.ReflTransGen (Step R packed chunkNodes debugAssertions faults)

end MdbxWriteSink
end TrieRebuild
