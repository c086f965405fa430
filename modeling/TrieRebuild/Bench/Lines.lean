import TrieRebuild.Bench.DatadirBench
import TrieRebuild.Foundation.Log
import TrieRebuild.Rebuild.Interrupted

/-! What a `datadir_bench` process may leave in the database and what its lines say of it. -/
namespace TrieRebuild
open Foundation

namespace Output

/-- The root that `check_root` is called with after a line. -/
def root? : Output → Option B256
  | rebuilt done => some done.root
  | wrote _ root _ _ => some root
  | digested _ root _ _ => some root
  | serial root => some root
  | _ => none

/-- The label it is called with. -/
def label : Output → String
  | rebuilt _ => "reth rebuild"
  | wrote run _ _ _ => s!"run {run}"
  | digested run _ _ _ => s!"run {run}"
  | serial _ => "reth serial"
  | _ => ""

end Output

namespace DatadirBench
variable {ε W I Account K S : Type} [DecidableEq K] [DecidableEq S]
variable (D : Dependencies ε W I Account K S) (ι : Type) [DecidableEq ι]

/-- The walks of a rebuild over a database's hashed state. -/
abbrev rebuildWalk (db : Datadir Account K S) :
    Option I → TrieTables K S → Except W (StateRootProgress I) :=
  D.rootWithProgress db.hashed (adapter D db) none

/-- Trie tables that one build, or one rebuild, over a database's hashed state has made, to its end
or not. -/
inductive Derived (db : Datadir Account K S) : TrieTables K S → Prop
  | build {ns : Multiset Node} {T : TrieTables K S} (h : D.HandsOver db.hashed ns)
      (hle : T.nodes (adapter D db) ≤ ns) : Derived db T
  | rebuild {ws : List (Walk I)} {state : Option I} {T : TrieTables K S}
      (h : Walks (rebuildWalk D db) (adapter D db) none {} ws state T) : Derived db T
  | rebuilt {ws : List (Walk I)} {root : B256} {T : TrieTables K S}
      (h : Completes (rebuildWalk D db) (adapter D db) ws root)
      (hT : T.row = (ws.map fun w => w.2.updates).foldl
        (fun f u => (u.patch (adapter D db)).apply f) fun _ => none) : Derived db T

/-- The trie tables a process may leave: those it found and, if its flags say so, derived ones. -/
def Leaves (args : Args) (db : Datadir Account K S) (T : TrieTables K S) : Prop :=
  T = db.trie ∨ writes args = true ∧ Derived D db T

/-- The totals of a generator run's reports. -/
def walkedOf (entries : Multiset UInt64) : UInt64 := .ofNat (entries.map UInt64.toNat).sum

/-- `entries` of both hashed tables. -/
def entriesOf (hashed : HashedTables Account) : UInt64 :=
  .ofNat (hashed.accounts.keys.card+hashed.storages.card)

/-- The counts of a sink that was handed some nodes. -/
def writtenOf (args : Args) (ns : List Node) : Written :=
  ⟨ns.length,ns.length ⌈/⌉ max args.chunkNodes.toNat 1⟩

/-- What `digest_trie_tables` finds in tables of these nodes. -/
def tablesOf (T : TrieTables K S) (ns : List Node) : TrieTablesDigest :=
  ⟨.ofNat T.rows.accounts.card,.ofNat T.rows.storages.card,
    NodeDigest.ofStream D.hashOne D.packing ns⟩

variable {D} in
omit [DecidableEq K] in
theorem tablesOf_congr {ns ns' : List Node} (h : (ns : Multiset Node) = ns') (T : TrieTables K S) :
    tablesOf D T ns = tablesOf D T ns' := by
  rw [tablesOf,NodeDigest.ofStream_eq_of_coe D.hashOne D.packing h]
  rfl

/-- What `check_root` prints after a line. -/
def matchedLines (args : Args) (line : Output) : List Output :=
  match args.expectedRoot with
  | none => []
  | some _ => [.matched line.label]

/-- The flags of a process that builds without writing. -/
def Digests (args : Args) : Prop :=
  writes args = false ∧ args.digestTrieTables = false ∧ args.rethSerial = false

/-- What makes a line true, of a process with these arguments on this database that has printed other
lines before. -/
inductive Truthful (args : Args) (db : Datadir Account K S) (before : List Output) : Output → Prop
  | cleared (hf : args.clearTrieTables = true) : Truthful args db before .cleared
  | tip : Truthful args db before (.tip db.finishBlock)
  | threads : Truthful args db before (.threads (D.poolThreads args.threads))
  | hashedEntries (hf : args.write = true ∨ Digests args) :
      Truthful args db before (.hashedEntries (entriesOf db.hashed))
  | chunk {ws : List (Walk I)} {totals : Rebuilt} (hf : args.rethRebuild = true)
      (h : (∃ state T, Walks (rebuildWalk D db) (adapter D db) none {} ws state T) ∨
        ∃ root, Completes (rebuildWalk D db) (adapter D db) ws root)
      (ht : totals ∈ loggedAfter ws) : Truthful args db before (.chunk totals)
  | progress {ρ : Reporting ι} {now : ℕ} {line : Line} (hf : args.write = true ∨ Digests args)
      (h : Reporting.Reaches (.fresh ι (entriesOf db.hashed) progressInterval now) ρ)
      (hl : line ∈ ρ.shared.lines) : Truthful args db before (.progress line)
  | rebuilt {ws : List (Walk I)} {root : B256} (hf : args.rethRebuild = true)
      (h : Completes (rebuildWalk D db) (adapter D db) ws root) :
      Truthful args db before (.rebuilt { Rebuilt.start.after ws with root })
  | wrote {run : Usize} {root : B256} {ns : List Node} {entries : Multiset UInt64}
      (hf : args.write = true) (hrun : run ∈ runs args.repeats)
      (h : D.Builds db.hashed root ns entries) :
      Truthful args db before (.wrote run root (walkedOf entries) (writtenOf args ns))
  | digested {run : Usize} {root : B256} {ns : List Node} {entries : Multiset UInt64}
      (hf : Digests args) (hrun : run ∈ runs args.repeats)
      (h : D.Builds db.hashed root ns entries) :
      Truthful args db before (.digested run root (walkedOf entries)
        (NodeDigest.ofStream D.hashOne D.packing ns))
  | serial {root : B256} (hw : writes args = false) (hd : args.digestTrieTables = false)
      (hf : args.rethSerial = true)
      (h : D.serialRoot db.hashed (adapter D db) db.trie = .ok root) :
      Truthful args db before (.serial root)
  | matched {line : Output} {root : B256} (hl : [line] <:+ before) (hr : line.root? = some root)
      (he : args.expectedRoot = some root) : Truthful args db before (.matched line.label)
  | tables {T : TrieTables K S} {ns : List Node} (hT : Leaves D args db T)
      (h : T.nodes (adapter D db) = ns) :
      Truthful args db before (.tables (tablesOf D T ns))
  | walk {T : TrieTables K S} {ns : List Node} {root : B256} {line : Output}
      (hT : Leaves D args db T) (hns : T.nodes (adapter D db) = ns)
      (hl : line::(matchedLines args line ++ [.tables (tablesOf D T ns)]) <:+ before)
      (hr : line.root? = some root) (h : D.serialRoot db.hashed (adapter D db) T = .ok root) :
      Truthful args db before (.walk root)

/-- What makes a complaint true after the lines printed: the root shown last is not the expected
one, or it is not the one in the tables as they are, whose digest follows it. -/
inductive Mismatch (args : Args) (db : Datadir Account K S) (lines : List Output)
    (T : TrieTables K S) : Complaint → Prop
  | expected {line : Output} {root expected : B256} (hl : [line] <:+ lines)
      (hr : line.root? = some root) (he : args.expectedRoot = some expected)
      (hne : root ≠ expected) : Mismatch args db lines T (.rootMismatch line.label expected)
  | walked {ns : List Node} {line : Output} {root walked : B256} (hns : T.nodes (adapter D db) = ns)
      (hl : line::(matchedLines args line ++ [.tables (tablesOf D T ns)]) <:+ lines)
      (hr : line.root? = some root) (h : D.serialRoot db.hashed (adapter D db) T = .ok walked)
      (hne : walked ≠ root) : Mismatch args db lines T (.walkMismatch walked root)

/-- A process has changed nothing but the trie tables, and all it has printed is true. -/
structure Sound (args : Args) (db : Datadir Account K S) (s : World Account K S) : Prop where
  frame : s.db = { db with trie := s.db.trie }
  trie : Leaves D args db s.db.trie
  stdout : Justified (Truthful D ι args db) s.stdout

/-- A process at work: nothing has gone wrong. -/
structure Working (args : Args) (db : Datadir Account K S) (s : World Account K S) : Prop
    extends Sound D ι args db s where
  stderr : s.stderr = []

/-- The tables hold these nodes, a walk over them gives the root, and the last lines, from `line` on,
say so. -/
structure Shown (args : Args) (db : Datadir Account K S) (s : World Account K S) (line : Output)
    (root : B256) (ns : List Node) : Prop where
  nodes : s.db.trie.nodes (adapter D db) = ns
  serial : D.serialRoot db.hashed (adapter D db) s.db.trie = .ok root
  lines : line::(matchedLines args line ++ [.tables (tablesOf D s.db.trie ns),.walk root]) <:+
    s.stdout

/-- The last of the `--write` runs has left all nodes of its build. -/
def WrittenBy (args : Args) (db : Datadir Account K S) (run : Usize) (s : World Account K S) :
    Prop :=
  ∃ (root : B256) (ns : List Node) (entries : Multiset UInt64), D.Builds db.hashed root ns entries ∧
    s.db.trie = ({} : TrieTables K S).overlaid (adapter D db) ns ∧
    Shown D args db s (.wrote run root (walkedOf entries) (writtenOf args ns)) root ns

/-- `--reth-rebuild` has left the nodes of all its walks. -/
def RebuiltBy (args : Args) (db : Datadir Account K S) (s : World Account K S) : Prop :=
  ∃ ws root ns, Completes (rebuildWalk D db) (adapter D db) ws root ∧
    s.db.trie.row = (ws.map fun w => w.2.updates).foldl
      (fun f u => (u.patch (adapter D db)).apply f) (fun _ => none) ∧
    Shown D args db s (.rebuilt { Rebuilt.start.after ws with root }) root ns

/-- Every root shown is the expected one. -/
def Expected (args : Args) (s : World Account K S) : Prop :=
  ∀ line ∈ s.stdout, ∀ root, line.root? = some root →
    ∀ expected, args.expectedRoot = some expected → root = expected

/-- A process that has come to its end. -/
structure Settled (args : Args) (db : Datadir Account K S) (s : World Account K S) : Prop where
  stderr : s.stderr = []
  expected : Expected args s
  cleared : args.clearTrieTables = true → args.rethRebuild = false → args.write = false →
    s.db.trie = {}
  rebuilt : args.rethRebuild = true → args.write = false → RebuiltBy D args db s
  written : args.write = true → args.repeats.toNat ≠ 0 → WrittenBy D args db args.repeats s

/-- What an exit status says. -/
inductive Status (args : Args) (db : Datadir Account K S) : Stop → World Account K S → Prop
  | killed {s : World Account K S} : Status args db .killed s
  | panicked {s : World Account K S} (h : ∀ c ∈ s.stderr, ∃ msg, c = .panicked msg) :
      Status args db (.exited 101) s
  | mismatch {s : World Account K S} {c : Complaint} (h : s.stderr = [c])
      (hc : Mismatch D args db s.stdout s.db.trie c) : Status args db (.exited 1) s
  | settled {s : World Account K S} (h : Settled D args db s) : Status args db (.exited 0) s

/-- A process that has stopped. -/
structure Ending (args : Args) (db : Datadir Account K S) (stop : Stop) (s : World Account K S) :
    Prop extends Sound D ι args db s where
  status : Status D args db stop s

end DatadirBench
end TrieRebuild
