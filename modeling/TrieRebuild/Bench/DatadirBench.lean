import TrieRebuild.Foundation.Process
import TrieRebuild.Bench.Args
import TrieRebuild.Digest.PushInterleaving
import TrieRebuild.Digest.ScanErrors
import TrieRebuild.Memory.WriteHashedState
import TrieRebuild.Progress.ProgressSink
import TrieRebuild.Rebuild.RethRebuild
import TrieRebuild.Sink.Channel

/-! `datadir_bench`: builds the state trie from a datadir's hashed state, and with `--write` or
`--reth-rebuild` writes it, under a process that may fail at any call and be killed at any point. -/
namespace TrieRebuild
open Foundation

/-- The database, as far as the benchmark reads or writes it. -/
structure Datadir (Account K S : Type) where
  settings : Option (List UInt8) := none
  finishBlock : Option UInt64 := none
  hashed : HashedTables Account := {}
  trie : TrieTables K S := {}

/-- A line on the standard output, without elapsed times and heap sizes. -/
inductive Output
  | cleared
  | tip (block : Option UInt64)
  | threads (threads : Usize)
  | hashedEntries (entries : UInt64)
  | chunk (totals : Rebuilt)
  | progress (line : Line)
  | rebuilt (done : Rebuilt)
  | wrote (run : Usize) (root : B256) (walked : UInt64) (written : Written)
  | digested (run : Usize) (root : B256) (walked : UInt64) (digest : Digest)
  | serial (root : B256)
  | matched (label : String)
  | tables (tables : TrieTablesDigest)
  | walk (root : B256)

/-- A line on the standard error. -/
inductive Complaint
  | usage (msg : String)
  | rootMismatch (label : String) (expected : B256)
  | walkMismatch (walked expected : B256)
  | panicked (msg : String)

/-- The process's surroundings. -/
structure World (Account K S : Type) where
  db : Datadir Account K S
  stdout : List Output := []
  stderr : List Complaint := []

/-- What the benchmark calls and does not contain. `Builds` says what a build of the generator over
some hashed state may return, hand to its sink and report to it, `HandsOver` what it may have handed
over by the time it stops: nodes with distinct keys and non-empty paths. A walk without changed
prefixes removes no node. -/
structure Dependencies (ε W I Account K S : Type) [DecidableEq S] where
  reth : Reth K S
  hashOne : UInt64 → List UInt8 → UInt64
  packing : NibblePacking
  parseRoot : String → Option B256
  poolThreads : Option Usize → Usize
  debugAssertions : Bool
  rootWithProgress : HashedTables Account → TrieTableAdapter K S → Option UInt64 → Option I →
    TrieTables K S → Except W (StateRootProgress I)
  serialRoot : HashedTables Account → TrieTableAdapter K S → TrieTables K S → Except W B256
  other : W → ε
  Builds : HashedTables Account → B256 → Multiset Node → Multiset UInt64 → Prop
  HandsOver : HashedTables Account → Multiset Node → Prop
  handsOver : ∀ {hashed root ns entries}, Builds hashed root ns entries → HandsOver hashed ns
  distinct : ∀ {hashed ns}, HandsOver hashed ns → (ns.map Node.key).Nodup
  storable : ∀ {hashed ns}, HandsOver hashed ns → ∀ n ∈ ns, n.path.isEmpty = false
  noRemovals : ∀ {hashed A state T progress},
    rootWithProgress hashed A none state T = .ok progress → progress.updates.NoRemovals

/-- Ten seconds. -/
def progressInterval : ℕ := 10000000000

namespace World
variable {Account K S : Type}

/-- The world with other trie tables and more lines. -/
def after (s : World Account K S) (T : TrieTables K S) (lines : List Output)
    (complaints : List Complaint) : World Account K S where
  db := { s.db with trie := T }
  stdout := s.stdout ++ lines
  stderr := s.stderr ++ complaints

def print (s : World Account K S) (line : Output) : World Account K S :=
  { s with stdout := s.stdout ++ [line] }

def complain (s : World Account K S) (complaint : Complaint) : World Account K S :=
  { s with stderr := s.stderr ++ [complaint] }

end World

/-- Killed, or brought down by panics. -/
structure Halts (stop : Stop) (complaints : List Complaint) : Prop where
  stop : stop = .killed ∨ stop = .exited 101
  complaints : ∀ c ∈ complaints, ∃ msg, c = .panicked msg

namespace DatadirBench
variable {α : Type} {ε W I Account K S : Type} [DecidableEq K] [DecidableEq S]

section Calls

def panicked (msg : String) : Process (World Account K S) α := do
  Process.act fun s (_ : Unit) s' => s' = s.complain (.panicked msg)
  Process.exit 101

/-- `expect(msg)` on a result. -/
def orPanic (msg : String) : Except ε α → Process (World Account K S) α
  | .ok a => pure a
  | .error _ => panicked msg

/-- `expect(msg)` on a call that may fail. -/
def expect (msg : String) (r : World Account K S → α → World Account K S → Prop) :
    Process (World Account K S) α :=
  .either (.act r) (panicked msg)

def println (line : Output) : Process (World Account K S) Unit :=
  expect "failed printing to stdout" fun s _ s' => s' = s.print line

/-- `eprintln!` panics without a trace if the standard error is gone. -/
def eprintln (complaint : Complaint) : Process (World Account K S) Unit :=
  .either (.act fun s _ s' => s' = s.complain complaint) (.exit 101)

/-- `db.tx()`: a snapshot. -/
def readTx : Process (World Account K S) (Datadir Account K S) :=
  expect "read transaction" fun s tx s' => tx = s.db ∧ s' = s

def printTip (tx : Datadir Account K S) : Process (World Account K S) Unit := do
  let tip ← expect "read stage checkpoints" fun s tip s' => tip = tx.finishBlock ∧ s' = s
  println (.tip tip)

def hashedEntries (tx : Datadir Account K S) : Process (World Account K S) UInt64 := do
  let accounts ← expect "count hashed accounts" fun s n s' =>
    n = tx.hashed.accounts.keys.card ∧ s' = s
  let storages ← expect "count hashed storages" fun s n s' =>
    n = tx.hashed.storages.card ∧ s' = s
  pure (.ofNat (accounts+storages))

def checkRoot (root : B256) (expected : Option B256) (label : String) :
    Process (World Account K S) Unit :=
  match expected with
  | none => pure ()
  | some expected =>
    if root = expected then println (.matched label)
    else do
      eprintln (.rootMismatch label expected)
      Process.exit 1

/-- `1..=repeat`. -/
def runs (n : Usize) : List Usize := (List.range n.toNat).map fun i => .ofNat (i+1)

end Calls

section Program
variable (D : Dependencies ε W I Account K S) (ι : Type) [Fintype ι] [DecidableEq ι]

/-- The adapter of a database's key encoding. -/
def adapter (db : Datadir Account K S) : TrieTableAdapter K S :=
  D.reth.adapter (D.reth.usesPackedTrieKeys db.settings)

def parseArgsOrExit (argv : List String) : Process (World Account K S) Args :=
  match parseArgs D.parseRoot argv with
  | .ok args => pure args
  | .error msg => do
    eprintln (.usage msg)
    Process.exit 2

def rethSerialRoot (msg : String) (tx : Datadir Account K S) :
    Process (World Account K S) B256 :=
  expect msg fun s root s' => D.serialRoot tx.hashed (adapter D tx) tx.trie = .ok root ∧ s' = s

def printTrieTablesDigest (tx : Datadir Account K S) : Process (World Account K S) Unit := do
  let tables ← expect "digest trie tables" fun s tables s' =>
    (∃ (C : TableCursors tx.trie.rows) (faults : Fin 16 → Option (ℕ × ε)) (fault : Option (ℕ × ε)),
      TryDigestTables D.hashOne D.packing (adapter D tx) C faults fault (.ok tables)) ∧ s' = s
  println (.tables tables)

def checkWrittenTables (tx : Datadir Account K S) (root : B256) :
    Process (World Account K S) Unit := do
  printTrieTablesDigest D tx
  let walked ← rethSerialRoot D "reth StateRoot over written tables" tx
  if walked = root then println (.walk walked)
  else do
    eprintln (.walkMismatch walked root)
    Process.exit 1

variable (ε) in
def clear : Process (World Account K S) Unit := do
  let result ← Process.transaction (fun s => s.db.trie) (fun T s => s.after T [] [])
    (clearTrieTables : Tx ε (TrieTables K S) Unit)
  orPanic "clear trie tables" result

/-- `reth_rebuild` and its log. Stopped early it leaves the tables as its last committed chunk did;
a fault in the chunk that was running leaves them the same. -/
inductive RethRebuild : Process (World Account K S) Rebuilt
  | done {s : World Account K S} {faults : ℕ → ℕ → Option ε} {fuel : ℕ} {done : Rebuilt}
      {loop : RebuildLoop I K S}
      (h : rethRebuild D.reth (D.rootWithProgress s.db.hashed) D.other s.db.settings none faults
        fuel s.db.trie = some (.ok done,loop)) :
      RethRebuild s (.ok done) (s.after loop.tables (loop.logged.map .chunk) [])
  | stopped {s : World Account K S} {faults : ℕ → ℕ → Option ε} {fuel : ℕ}
      {result : Except ε Rebuilt} {loop : RebuildLoop I K S} {stop : Stop} {lines : ℕ}
      {complaints : List Complaint}
      (h : rethRebuild D.reth (D.rootWithProgress s.db.hashed) D.other s.db.settings none faults
        fuel s.db.trie = some (result,loop)) (hs : Halts stop complaints) :
      RethRebuild s (.error stop)
        (s.after loop.tables ((loop.logged.take lines).map .chunk) complaints)

/-- What a build into an `MdbxWriteSink` comes to. -/
structure Built where
  root : B256
  walked : UInt64
  written : Written

/-- The build of a `--write` run: the generator's workers send to the sink and report to the
progress sink around it. -/
inductive BuildWritten (chunkNodes : Usize) (entries : UInt64) : Process (World Account K S) Built
  | done {s : World Account K S} {faults : ℕ → ℕ → Option ε} {σ : MdbxWriteSink ι ε K S}
      {ρ : Reporting ι} {now : ℕ} {root : B256} {written : Written}
      (hσ : MdbxWriteSink.Reaches D.reth (D.reth.usesPackedTrieKeys s.db.settings)
        (max chunkNodes.toNat 1) D.debugAssertions faults (.start s.db.trie) σ)
      (hf : σ.finish = .returned (.ok written))
      (hρ : Reporting.Reaches (.fresh ι entries progressInterval now) ρ)
      (hidle : ∀ t, ρ.locals t = .idle)
      (hb : D.Builds s.db.hashed root σ.called ρ.shared.added) :
      BuildWritten chunkNodes entries s (.ok ⟨root,ρ.shared.sink.walked,written⟩)
        (s.after σ.tables (ρ.shared.lines.map .progress) [])
  | stopped {s : World Account K S} {faults : ℕ → ℕ → Option ε} {σ : MdbxWriteSink ι ε K S}
      {ρ : Reporting ι} {now : ℕ} {stop : Stop} {complaints : List Complaint}
      (hσ : MdbxWriteSink.Reaches D.reth (D.reth.usesPackedTrieKeys s.db.settings)
        (max chunkNodes.toNat 1) D.debugAssertions faults (.start s.db.trie) σ)
      (hρ : Reporting.Reaches (.fresh ι entries progressInterval now) ρ)
      (hb : D.HandsOver s.db.hashed σ.called) (hs : Halts stop complaints) :
      BuildWritten chunkNodes entries s (.error stop)
        (s.after σ.tables (ρ.shared.lines.map .progress) complaints)

/-- What a build into a `NodeDigest` comes to. -/
structure Digested where
  root : B256
  walked : UInt64
  digest : Digest

/-- The build of a read-only run. -/
inductive BuildDigest (entries : UInt64) : Process (World Account K S) Digested
  | done {s : World Account K S} {calls : ι → List Node} {σ : NodeDigest.Shared ι}
      {ns : List Node} {ρ : Reporting ι} {now : ℕ} {root : B256}
      (hσ : NodeDigest.Reaches D.hashOne D.packing (NodeDigest.start calls) σ) (hf : σ.Finished)
      (hns : (ns : Multiset Node) = ∑ t, (calls t : Multiset Node))
      (hρ : Reporting.Reaches (.fresh ι entries progressInterval now) ρ)
      (hidle : ∀ t, ρ.locals t = .idle)
      (hb : D.Builds s.db.hashed root ns ρ.shared.added) :
      BuildDigest entries s (.ok ⟨root,ρ.shared.sink.walked,σ.digest.snapshot⟩)
        (s.after s.db.trie (ρ.shared.lines.map .progress) [])
  | stopped {s : World Account K S} {ρ : Reporting ι} {now : ℕ} {stop : Stop}
      {complaints : List Complaint}
      (hρ : Reporting.Reaches (.fresh ι entries progressInterval now) ρ)
      (hs : Halts stop complaints) :
      BuildDigest entries s (.error stop)
        (s.after s.db.trie (ρ.shared.lines.map .progress) complaints)

/-- One run with `--write`. -/
def writeRun (args : Args) (entries : UInt64) (run : Usize) : Process (World Account K S) Unit := do
  clear ε
  let built ← BuildWritten D ι args.chunkNodes entries
  println (.wrote run built.root built.walked built.written)
  checkRoot built.root args.expectedRoot s!"run {run}"
  let tx ← readTx
  checkWrittenTables D tx built.root

/-- One read-only run. -/
def digestRun (args : Args) (entries : UInt64) (run : Usize) :
    Process (World Account K S) Unit := do
  let built ← BuildDigest D ι entries
  println (.digested run built.root built.walked built.digest)
  checkRoot built.root args.expectedRoot s!"run {run}"

variable (ε) in
/-- The part of `main` for `--clear-trie-tables`. -/
def clearing : Process (World Account K S) Unit := do
  clear ε
  println .cleared

/-- The part for `--reth-rebuild`. -/
def rebuilding (args : Args) : Process (World Account K S) Unit := do
  let tx ← readTx
  printTip tx
  let done ← RethRebuild D
  println (.rebuilt done)
  checkRoot done.root args.expectedRoot "reth rebuild"
  let tx ← readTx
  checkWrittenTables D tx done.root

/-- The part for `--write`. -/
def writing (args : Args) (threads : Usize) : Process (World Account K S) Unit := do
  let tx ← readTx
  printTip tx
  println (.threads threads)
  let tx ← readTx
  let entries ← hashedEntries tx
  println (.hashedEntries entries)
  Process.each (runs args.repeats) (writeRun D ι args entries)

/-- `main` on a database opened read-write. -/
def readWrite (args : Args) (threads : Usize) : Process (World Account K S) Unit := do
  expect "open datadir db read-write" fun s _ s' => s' = s
  Process.onlyIf args.clearTrieTables (clearing ε)
  Process.onlyIf args.rethRebuild (rebuilding D args)
  Process.onlyIf args.write (writing D ι args threads)

/-- `main` on a database opened read-only. -/
def readOnly (args : Args) (threads : Usize) : Process (World Account K S) Unit := do
  expect "open datadir db read-only" fun s _ s' => s' = s
  let tx ← readTx
  printTip tx
  println (.threads threads)
  if args.digestTrieTables then printTrieTablesDigest D tx
  else if args.rethSerial then do
    let root ← rethSerialRoot D "reth StateRoot" tx
    println (.serial root)
    checkRoot root args.expectedRoot "reth serial"
  else do
    let entries ← hashedEntries tx
    println (.hashedEntries entries)
    Process.each (runs args.repeats) (digestRun D ι args entries)

/-- Whether the flags ask for a database to write to. -/
def writes (args : Args) : Bool := args.clearTrieTables || args.rethRebuild || args.write

def main (argv : List String) : Process (World Account K S) Unit := do
  let args ← parseArgsOrExit D argv
  let threads ← expect "runtime builds" fun s threads s' =>
    threads = D.poolThreads args.threads ∧ s' = s
  if writes args then readWrite D ι args threads else readOnly D ι args threads

end Program
end DatadirBench
end TrieRebuild
