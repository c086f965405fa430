import TrieRebuild.Foundation.Threads
import TrieRebuild.Trie.Types

/-! `ProgressSink`: threads that report entries, interleaved at the atomic addition, the lock, the
readings of the clock and the log call. Times are in nanoseconds. -/
namespace TrieRebuild
open Foundation

/-- A `TrieSink` that logs a progress line at most once per interval. The inner sink sees nothing
of it. -/
structure ProgressSink where
  /-- The expected number of hashed entries. -/
  total : UInt64
  walked : UInt64 := 0
  started : ℕ
  interval : ℕ
  lastLog : ℕ

/-- Expects `total` hashed entries and logs at most every `interval`. -/
def ProgressSink.new (total : UInt64) (interval now : ℕ) : ProgressSink :=
  { total, started := now, interval, lastLog := now }

/-- What a call reads off its addition: the new value of `walked` and, to tell the calls apart, the
number of additions before it. -/
structure Ticket where
  walked : UInt64
  call : ℕ
  deriving DecidableEq

/-- A logged line, from which its percentage and remaining time are computed, and the clock reading
of the interval check that let it through. -/
structure Line where
  ticket : Ticket
  total : UInt64
  elapsed : ℕ
  checked : ℕ
  deriving DecidableEq

/-- The sink with its lock, the last reading of the clock, and the history: the entries of all
additions and the logged lines, in order. -/
structure Progress where
  sink : ProgressSink
  locked : Bool := false
  poisoned : Bool := false
  clock : ℕ
  added : List UInt64 := []
  lines : List Line := []

/-- Where a call of `on_progress` stands: after the addition, with the lock, past the interval
check, past the update of `last_log`, past the log call. -/
inductive Reporter
  | idle
  | added (ticket : Ticket)
  | locked (ticket : Ticket)
  | passed (ticket : Ticket) (checked : ℕ)
  | stamped (ticket : Ticket) (checked : ℕ)
  | logged
  | panicked

/-- One move of one thread. Each reading of the clock is at least the last one. Computing or logging
the line may panic, which poisons the lock. -/
inductive Reporter.Move : Progress → Reporter → Progress → Reporter → Prop
  | skip (p : Progress) : Move p .idle p .idle
  | fetchAdd (p : Progress) (entries : UInt64) (h : entries ≠ 0) :
      Move p .idle
        { p with
          sink := { p.sink with walked := p.sink.walked+entries }
          added := p.added ++ [entries] }
        (.added ⟨p.sink.walked+entries,p.added.length⟩)
  | lock (p : Progress) (k : Ticket) (h : p.locked = false) (hp : p.poisoned = false) :
      Move p (.added k) { p with locked := true } (.locked k)
  | lockPoisoned (p : Progress) (k : Ticket) (h : p.locked = false) (hp : p.poisoned = true) :
      Move p (.added k) p .panicked
  | early (p : Progress) (k : Ticket) (now : ℕ) (hnow : p.clock ≤ now)
      (h : now-p.sink.lastLog < p.sink.interval) :
      Move p (.locked k) { p with clock := now, locked := false } .idle
  | pass (p : Progress) (k : Ticket) (now : ℕ) (hnow : p.clock ≤ now)
      (h : ¬now-p.sink.lastLog < p.sink.interval) :
      Move p (.locked k) { p with clock := now } (.passed k now)
  | stamp (p : Progress) (k : Ticket) (checked now : ℕ) (hnow : p.clock ≤ now) :
      Move p (.passed k checked)
        { p with clock := now, sink := { p.sink with lastLog := now } } (.stamped k checked)
  | log (p : Progress) (k : Ticket) (checked now : ℕ) (hnow : p.clock ≤ now) :
      Move p (.stamped k checked)
        { p with
          clock := now
          lines := p.lines ++ [⟨k,p.sink.total,now-p.sink.started,checked⟩] }
        .logged
  | logPanics (p : Progress) (k : Ticket) (checked now : ℕ) (hnow : p.clock ≤ now) :
      Move p (.stamped k checked) { p with clock := now, locked := false, poisoned := true }
        .panicked
  | unlock (p : Progress) : Move p .logged { p with locked := false } .idle

/-- A call that has the lock. -/
def Reporter.holds : Reporter → Bool
  | locked _ => true
  | passed _ _ => true
  | stamped _ _ => true
  | logged => true
  | _ => false

/-- The addition of a call that may still log. -/
def Reporter.ticket? : Reporter → Option Ticket
  | added k => some k
  | locked k => some k
  | passed k _ => some k
  | stamped k _ => some k
  | _ => none

/-- The sink with the threads that report to it. -/
abbrev Reporting (ι : Type) := Threads ι Progress Reporter

namespace Reporting
variable {ι : Type}

/-- A fresh sink. -/
def fresh (ι : Type) (total : UInt64) (interval now : ℕ) : Reporting ι :=
  ⟨{ sink := .new total interval now, clock := now },fun _ => .idle⟩

def Step [DecidableEq ι] (σ σ' : Reporting ι) : Prop := ∃ t, Threads.Step Reporter.Move t σ σ'

abbrev Reaches [DecidableEq ι] : Reporting ι → Reporting ι → Prop := Relation.ReflTransGen Step

end Reporting
end TrieRebuild
