import TrieRebuild.Bench.Lines
import TrieRebuild.Sink.Conservation

/-! A `datadir_bench` process whose calls succeed and whose roots agree can come to its end, with
any flags. -/
namespace TrieRebuild
open Foundation

namespace Reporting
variable {ι : Type} [DecidableEq ι]

/-- The fields of a progress sink that logs nothing before its first interval is over. -/
structure Early (now interval : ℕ) (p : Progress) : Prop where
  locked : p.locked = false
  poisoned : p.poisoned = false
  clock : p.clock = now
  lastLog : p.sink.lastLog = now
  interval : p.sink.interval = interval

/-- One thread can report all entries, one after the other. -/
theorem exists_reported (t : ι) (total : UInt64) {interval : ℕ} (hi : 0 < interval) (now : ℕ)
    {entries : List UInt64} (h : ∀ e ∈ entries, e ≠ 0) :
    ∃ p, Reaches (fresh ι total interval now) ⟨p,fun _ => .idle⟩ ∧ p.added = entries ∧
      Early now interval p := by
  induction entries using List.reverseRecOn with
  | nil => exact ⟨_,.refl,rfl,rfl,rfl,rfl,rfl,rfl⟩
  | append_singleton entries e ih =>
    obtain ⟨p,hr,hadded,hp⟩ := ih fun e' he' => h e' (List.mem_append_left _ he')
    have hidle : (fun _ => .idle : ι → Reporter) = Function.update (fun _ => .idle) t .idle :=
      (Function.update_eq_self t _).symm
    have hearly : now-p.sink.lastLog < p.sink.interval := by
      rw [hp.lastLog,hp.interval]
      omega
    let p₁ : Progress := { p with
      sink := { p.sink with walked := p.sink.walked+e }
      added := p.added ++ [e] }
    have h₁ : Reporter.Move p .idle p₁ (.added ⟨p.sink.walked+e,p.added.length⟩) :=
      .fetchAdd p e (h e (by simp))
    have h₂ : Reporter.Move p₁ (.added ⟨p.sink.walked+e,p.added.length⟩) { p₁ with locked := true }
      (.locked ⟨p.sink.walked+e,p.added.length⟩) := .lock p₁ _ hp.locked hp.poisoned
    have h₃ : Reporter.Move { p₁ with locked := true } (.locked ⟨p.sink.walked+e,p.added.length⟩)
      { p₁ with clock := now, locked := false } .idle := .early _ _ now hp.clock.le hearly
    refine ⟨{ p₁ with clock := now, locked := false },?_,by rw [← hadded],
      rfl,hp.poisoned,rfl,hp.lastLog,hp.interval⟩
    rw [hidle] at hr ⊢
    exact hr.tail ⟨t,Threads.Step.of_update h₁⟩ |>.tail ⟨t,Threads.Step.of_update h₂⟩
      |>.tail ⟨t,Threads.Step.of_update h₃⟩

end Reporting

section Walker
variable {W I K S : Type} [DecidableEq K] [DecidableEq S] {A : TrieTableAdapter K S}
variable {walk : Option I → TrieTables K S → Except W (StateRootProgress I)}

/-- What a walk is said to have returned, it has returned. -/
theorem Walks.results {state state' : Option I} {T T' : TrieTables K S} {walks : List (Walk I)}
    (h : Walks walk A state T walks state' T') : ∀ w ∈ walks, ∃ U, walk w.1 U = .ok w.2 := by
  induction h with
  | nil =>
    intro w hw
    cases hw
  | cons hwalk hT hr ih =>
    intro w hw
    rcases List.mem_cons.mp hw with rfl | hw
    · exact ⟨_,hwalk⟩
    · exact ih w hw

theorem Completes.results {walks : List (Walk I)} {root : B256} (h : Completes walk A walks root) :
    ∀ w ∈ walks, ∃ U, walk w.1 U = .ok w.2 := by
  obtain ⟨earlier,state,T,entries,updates,hearlier,hlast,rfl⟩ := h.run
  intro w hw
  rcases List.mem_append.mp hw with hw | hw
  · exact hearlier.results w hw
  · rw [List.mem_singleton.mp hw]
    exact ⟨T,hlast⟩

end Walker

/-- Without failing calls a rebuild ends with what the walker completes with. -/
theorem exists_rethRebuild {ε W I K S : Type} [DecidableEq K] [DecidableEq S] (R : Reth K S)
    {rootWithProgress : TrieTableAdapter K S → Option UInt64 → Option I → TrieTables K S →
      Except W (StateRootProgress I)}
    (other : W → ε) {settings : Option (List UInt8)} {threshold : Option UInt64}
    {walks : List (Walk I)} {root : B256}
    (h : Completes (rootWithProgress (R.adapter (R.usesPackedTrieKeys settings)) threshold)
      (R.adapter (R.usesPackedTrieKeys settings)) walks root)
    (hr : ∀ w ∈ walks, w.2.updates.NoRemovals) (T : TrieTables K S) :
    ∃ faults fuel done loop, rethRebuild R rootWithProgress other settings threshold faults fuel T =
      some (.ok done,loop) ∧ done.root = root := by
  obtain ⟨earlier,state,T',entries,updates,hwalks,hlast,rfl⟩ := h.run
  obtain ⟨s,hc,rfl,rfl,-,-⟩ := Walks.continues R _ _ other hwalks
    (fun w hw => hr w (List.mem_append_left _ hw)) (fun _ => Tx.noFault)
    { tables := {} } rfl rfl fun _ _ => rfl
  obtain ⟨c,T'',hy,hrow⟩ := writeTrieUpdatesWith_yields (ε := ε) R
    (R.adapter (R.usesPackedTrieKeys settings)) updates s.tables
  let faults : ℕ → ℕ → Option ε := fun _ => Tx.noFault
  have hf : faults s.totals.chunks = Tx.noFault := rfl
  have hbody := rebuildBody_eq R _ _ other hf hlast
    (hr _ (List.mem_append_right _ List.mem_cons_self)) hrow
  let s' := s.advance (.complete root entries updates)
    (updates.nodes.filter fun n => n.storable).card T''
  refine ⟨faults,earlier.length+1,
    ⟨root,s'.totals.entries,s'.totals.written,s'.totals.chunks⟩,s',?_,rfl⟩
  rw [rethRebuild_eq_loop R rootWithProgress other settings threshold rfl rfl]
  exact hc.loop_eq_some hbody (Nat.lt_succ_self _)

namespace DatadirBench
variable {α : Type} {ε W I Account K S : Type}

section Calls
variable {args : Args} {s : World Account K S} {Q : α → World Account K S → Prop}

theorem can_expect {msg : String} {r : World Account K S → α → World Account K S → Prop} {a : α}
    {s' : World Account K S} (hr : r s a s') (h : Q a s') : Process.can (expect msg r) Q s :=
  Process.can_either (Process.can_act hr h)

theorem can_println {Q : Unit → World Account K S → Prop} (line : Output)
    (h : Q () (s.print line)) : Process.can (println line) Q s :=
  can_expect rfl h

theorem can_readTx {Q : Datadir Account K S → World Account K S → Prop} (h : Q s.db s) :
    Process.can readTx Q s :=
  can_expect ⟨rfl,rfl⟩ h

theorem can_printTip {Q : Unit → World Account K S → Prop} (tx : Datadir Account K S)
    (h : Q () (s.print (.tip tx.finishBlock))) : Process.can (printTip tx) Q s :=
  Process.can_bind (can_expect ⟨rfl,rfl⟩ (can_println _ h))

theorem can_hashedEntries {Q : UInt64 → World Account K S → Prop} (tx : Datadir Account K S)
    (h : Q (entriesOf tx.hashed) s) : Process.can (hashedEntries tx) Q s :=
  Process.can_bind (can_expect ⟨rfl,rfl⟩
    (Process.can_bind (can_expect ⟨rfl,rfl⟩ (Process.can_pure h))))

theorem can_checkRoot {Q : Unit → World Account K S → Prop} {root : B256}
    (h : ∀ expected, args.expectedRoot = some expected → root = expected) (label : String)
    (hq : ∀ s', s'.db = s.db → Q () s') :
    Process.can (checkRoot root args.expectedRoot label) Q s := by
  cases he : args.expectedRoot with
  | none => exact Process.can_pure (hq s rfl)
  | some expected =>
    rw [checkRoot,if_pos (h expected he)]
    exact can_println _ (hq _ rfl)

theorem can_clear {Q : Unit → World Account K S → Prop} (h : Q () (s.after {} [] [])) :
    Process.can (clear ε) Q s :=
  Process.can_bind (Process.can_transaction (clearTrieTables_yields s.db.trie) (Process.can_pure h))

end Calls

variable [DecidableEq K] [DecidableEq S]
variable {D : Dependencies ε W I Account K S} {ι : Type} [DecidableEq ι]
variable {args : Args} {db : Datadir Account K S} {s : World Account K S}

variable (D) in
/-- The generator and the walkers find one root, the expected one if there is one. -/
structure Agrees (args : Args) (db : Datadir Account K S) (root : B256) : Prop where
  builds : ∃ (ns : List Node) (entries : List UInt64), D.Builds db.hashed root ns entries ∧
    ∀ e ∈ entries, e ≠ 0
  completes : ∃ ws, Completes (rebuildWalk D db) (adapter D db) ws root
  serial : ∀ T, D.serialRoot db.hashed (adapter D db) T = .ok root
  expected : ∀ expected, args.expectedRoot = some expected → root = expected

/-- Nothing but the trie tables has changed. -/
def Framed (db : Datadir Account K S) (s : World Account K S) : Prop :=
  s.db = { db with trie := s.db.trie }

section Checks
variable {Q : Unit → World Account K S → Prop} {root : B256}

omit [DecidableEq K] in
theorem can_rethSerialRoot {Q : B256 → World Account K S → Prop} (msg : String)
    {tx : Datadir Account K S} (hr : D.serialRoot tx.hashed (adapter D tx) tx.trie = .ok root)
    (h : Q root s) : Process.can (rethSerialRoot D msg tx) Q s :=
  can_expect ⟨hr,rfl⟩ h

omit [DecidableEq K] in
theorem can_printTrieTablesDigest (tx : Datadir Account K S)
    (h : ∀ s', s'.db = s.db → Q () s') :
    Process.can (printTrieTablesDigest D tx) Q s := by
  obtain ⟨C⟩ := exists_cursors tx.trie.rows
  obtain ⟨result,hresult⟩ := exists_tryDigestTables (ε := ε) D.hashOne D.packing (adapter D tx) C
    (fun _ => none) none
  cases result with
  | ok tables => exact Process.can_bind (can_expect ⟨⟨C,_,_,hresult⟩,rfl⟩ (can_println _ (h _ rfl)))
  | error e => rcases hresult.of_error rfl with he | ⟨nibble,he⟩ <;> cases he

omit [DecidableEq K] in
theorem can_checkWrittenTables {tx : Datadir Account K S}
    (hr : D.serialRoot tx.hashed (adapter D tx) tx.trie = .ok root)
    (h : ∀ s', s'.db = s.db → Q () s') :
    Process.can (checkWrittenTables D tx root) Q s := by
  refine Process.can_bind (can_printTrieTablesDigest tx fun t ht => ?_)
  refine Process.can_bind (can_rethSerialRoot _ hr ?_)
  rw [if_pos rfl]
  exact can_println _ (h _ ht)

end Checks

section Parts
variable {root : B256}

theorem Agrees.serialRoot (h : Agrees D args db root) (hs : Framed db s) :
    D.serialRoot s.db.hashed (adapter D s.db) s.db.trie = .ok root := by
  rw [hs]
  exact h.serial _

theorem can_writeRun [Fintype ι] (i : ι) (h : Agrees D args db root) (hs : Framed db s)
    (run : Usize) : Process.can (writeRun D ι args (entriesOf db.hashed) run)
      (fun _ s' => Framed db s') s := by
  obtain ⟨ns,entries,hb,hpos⟩ := h.builds
  have hdistinct : (ns.map Node.key).Nodup := by simpa using D.distinct (D.handsOver hb)
  refine Process.can_bind (can_clear ?_)
  obtain ⟨σ,hσ,hcalled,written,hf⟩ : ∃ σ : MdbxWriteSink ι ε K S,
      MdbxWriteSink.Reaches D.reth (D.reth.usesPackedTrieKeys s.db.settings)
        (max args.chunkNodes.toNat 1) D.debugAssertions MdbxWriteSink.noFaults (.start {}) σ ∧
      σ.called = ns ∧ ∃ written, σ.finish = .returned (.ok written) :=
    MdbxWriteSink.exists_finishing_run D.debugAssertions
      (lt_of_lt_of_le Nat.one_pos (le_max_right _ _)) i hdistinct
  obtain ⟨p,hρ,hadded,-⟩ := Reporting.exists_reported i (entriesOf db.hashed)
    (show 0 < progressInterval by decide) 0 hpos
  have hframe : (s.after {} [] []).db.hashed = db.hashed := by
    change s.db.hashed = db.hashed
    rw [hs]
  have hbuild : D.Builds (s.after {} [] []).db.hashed root σ.called p.added := by
    rw [hframe,hcalled,hadded]
    exact hb
  refine Process.can_bind ⟨_,_,.done hσ hf hρ (fun _ => rfl) hbuild,?_⟩
  have hframed : Framed db ((s.after {} [] []).after σ.tables (p.lines.map .progress) []) := by
    change ({ s.db with trie := σ.tables } : Datadir Account K S) = { db with trie := σ.tables }
    rw [hs]
  refine Process.can_bind (can_println _ ?_)
  refine Process.can_bind (can_checkRoot h.expected _ fun t ht => ?_)
  refine Process.can_bind (can_readTx ?_)
  have ht' : Framed db t := by
    rw [Framed,ht]
    exact hframed
  exact can_checkWrittenTables (h.serialRoot ht') fun u hu => by
    rw [Framed,hu]
    exact ht'

theorem can_digestRun [Fintype ι] (i : ι) (h : Agrees D args db root) (hs : Framed db s)
    (run : Usize) : Process.can (digestRun D ι args (entriesOf db.hashed) run)
      (fun _ s' => Framed db s') s := by
  obtain ⟨ns,entries,hb,hpos⟩ := h.builds
  let calls : ι → List Node := Function.update (fun _ => []) i ns
  have hcalls : (ns : Multiset Node) = ∑ t, (calls t : Multiset Node) := by
    have hothers : ∀ t ∈ Finset.univ, t ≠ i → (calls t : Multiset Node) = 0 := by
      intro t _ ht
      simp [calls,ht]
    rw [Finset.sum_eq_single i hothers fun hi => absurd (Finset.mem_univ i) hi]
    simp [calls]
  obtain ⟨σ,hσ,hf⟩ : ∃ σ, NodeDigest.Reaches D.hashOne D.packing (NodeDigest.start calls) σ ∧
    σ.Finished := NodeDigest.exists_finished calls
  obtain ⟨p,hρ,hadded,-⟩ := Reporting.exists_reported i (entriesOf db.hashed)
    (show 0 < progressInterval by decide) 0 hpos
  have hbuild : D.Builds s.db.hashed root ns p.added := by
    rw [hs,hadded]
    exact hb
  refine Process.can_bind ⟨_,_,.done hσ hf hcalls hρ (fun _ => rfl) hbuild,?_⟩
  refine Process.can_bind (can_println _ ?_)
  refine can_checkRoot h.expected _ fun t ht => ?_
  rw [Framed,ht]
  exact hs

theorem can_rebuilding (h : Agrees D args db root) (hs : Framed db s) :
    Process.can (rebuilding D args) (fun _ s' => Framed db s') s := by
  obtain ⟨ws,hws⟩ := h.completes
  have hno : ∀ w ∈ ws, w.2.updates.NoRemovals := by
    intro w hw
    obtain ⟨T,hT⟩ := hws.results w hw
    exact D.noRemovals hT
  refine Process.can_bind (can_readTx (Process.can_bind (can_printTip _ ?_)))
  let t := s.print (.tip s.db.finishBlock)
  have hwalks : Completes (rebuildWalk D t.db) (adapter D t.db) ws root := by
    change Completes (rebuildWalk D s.db) (adapter D s.db) ws root
    rw [hs]
    exact hws
  obtain ⟨faults,fuel,done,loop,hrun,rfl⟩ := exists_rethRebuild D.reth D.other hwalks hno t.db.trie
  refine Process.can_bind ⟨_,_,.done hrun,?_⟩
  refine Process.can_bind (can_println _ ?_)
  refine Process.can_bind (can_checkRoot h.expected _ fun u hu => ?_)
  have hu' : Framed db u := by
    rw [Framed,hu]
    change ({ s.db with trie := loop.tables } : Datadir Account K S) = { db with trie := loop.tables }
    rw [hs]
  refine Process.can_bind (can_readTx ?_)
  exact can_checkWrittenTables (h.serialRoot hu') fun v hv => by
    rw [Framed,hv]
    exact hu'

theorem can_writing [Fintype ι] (i : ι) (h : Agrees D args db root) (hs : Framed db s)
    (threads : Usize) : Process.can (writing D ι args threads) (fun _ s' => Framed db s') s := by
  refine Process.can_bind (can_readTx (Process.can_bind (can_printTip _ ?_)))
  refine Process.can_bind (can_println _ (Process.can_bind (can_readTx ?_)))
  refine Process.can_bind (can_hashedEntries _ (Process.can_bind (can_println _ ?_)))
  have hentries : entriesOf s.db.hashed = entriesOf db.hashed := by rw [hs]
  change Process.can (Process.each _ (writeRun D ι args (entriesOf s.db.hashed))) _ _
  rw [hentries]
  exact Process.can_each (fun run _ t ht => can_writeRun i h ht run) hs

theorem can_readOnly [Fintype ι] (i : ι) (h : Agrees D args db root) (hs : Framed db s)
    (threads : Usize) : Process.can (readOnly D ι args threads) (fun _ s' => Framed db s') s := by
  refine Process.can_bind (can_expect (a := ()) rfl (Process.can_bind (can_readTx ?_)))
  refine Process.can_bind (can_printTip _ (Process.can_bind (can_println _ ?_)))
  have hframed : ∀ t : World Account K S, t.db = s.db → Framed db t := by
    intro t ht
    rw [Framed,ht]
    exact hs
  split_ifs
  · exact can_printTrieTablesDigest _ fun t ht => hframed t ht
  · refine Process.can_bind (can_rethSerialRoot _ (h.serialRoot hs) ?_)
    exact Process.can_bind (can_println _ (can_checkRoot h.expected _ fun t ht => hframed t ht))
  · refine Process.can_bind (can_hashedEntries _ (Process.can_bind (can_println _ ?_)))
    have hentries : entriesOf s.db.hashed = entriesOf db.hashed := by rw [hs]
    rw [hentries]
    exact Process.can_each (fun run _ t ht => can_digestRun i h ht run) (hframed _ rfl)

/-- If generator and walkers agree on the root, and it is the expected one, no flags keep a process
from exiting with 0. -/
theorem exists_clean_run [Fintype ι] (i : ι) {argv : List String}
    (hargs : parseArgs D.parseRoot argv = .ok args) (h : Agrees D args db root) :
    ∃ s, (main D ι argv).run { db } (.exited 0) s := by
  have hframed : Framed db ({ db } : World Account K S) := rfl
  have hmain : Process.can (main D ι argv) (fun _ s' => Framed db s') { db } := by
    rw [main,parseArgsOrExit,hargs]
    refine Process.can_bind (Process.can_pure (Process.can_bind (can_expect ⟨rfl,rfl⟩ ?_)))
    split_ifs
    · refine Process.can_bind (can_expect (a := ()) rfl ?_)
      refine Process.can_bind (Process.can_mono (Process.can_onlyIf (R := Framed db)
        (fun _ => Process.can_bind (can_clear (can_println _ rfl))) fun _ => rfl) fun _ t ht => ?_)
      refine Process.can_bind (Process.can_mono (Process.can_onlyIf (R := Framed db)
        (fun _ => can_rebuilding h ht) fun _ => ht) fun _ u hu => ?_)
      exact Process.can_onlyIf (fun _ => can_writing i h hu _) fun _ => hu
    · exact can_readOnly i h hframed _
  obtain ⟨s,hs,-⟩ := Process.run_of_can hmain
  exact ⟨s,hs⟩

end Parts

section Sample
open ReferenceReth

/-- The node of the sample process. -/
def builtNode : Node := sampleNode none (.last 15)

/-- A generator and walkers that find this node, whatever the hashed state. -/
def sampleOver (Account : Type) : Dependencies Unit Unit Unit Account Nibbles Nibbles where
  reth := reth
  hashOne seed _ := seed
  packing := .standard
  parseRoot _ := none
  poolThreads _ := .ofNat 1
  debugAssertions := false
  rootWithProgress _ _ _ _ _ := .ok (.complete B256.zero 1 (.collect [builtNode]))
  serialRoot _ _ _ := .ok B256.zero
  other := id
  Builds _ root ns entries := root = B256.zero ∧ ns = {builtNode} ∧ entries = {.ofNat 1}
  HandsOver _ ns := ns ≤ {builtNode}
  handsOver h := h.2.1.le
  distinct h := Multiset.nodup_of_le (Multiset.map_le_map h) (Multiset.nodup_singleton _)
  storable hns m hm := by
    rw [Multiset.mem_singleton.mp (Multiset.mem_of_le hns hm)]
    rfl
  noRemovals h := by
    cases h
    exact (TrieUpdates.plain_collect _).noRemovals

abbrev sampleDependencies : Dependencies Unit Unit Unit Unit Nibbles Nibbles := sampleOver Unit

theorem sample_completes {Account : Type} (db : Datadir Account Nibbles Nibbles) :
    Completes (rebuildWalk (sampleOver Account) db) (adapter (sampleOver Account) db)
      [(none,.complete B256.zero 1 (.collect [builtNode]))] B256.zero :=
  ⟨[],none,{},1,_,.nil _ _,rfl,rfl⟩

/-- The sample process comes to its end with all flags but `--expected-root`. -/
theorem exists_sample_run {Account : Type} {argv : List String} {args : Args}
    (hargs : parseArgs (sampleOver Account).parseRoot argv = .ok args)
    (hexpected : args.expectedRoot = none) (db : Datadir Account Nibbles Nibbles) :
    ∃ s, (main (sampleOver Account) Unit argv).run { db } (.exited 0) s := by
  refine exists_clean_run () hargs ⟨⟨[builtNode],[.ofNat 1],⟨rfl,rfl,rfl⟩,?_⟩,
    ⟨_,sample_completes db⟩,fun _ => rfl,fun expected he => ?_⟩
  · intro e he
    rw [List.mem_singleton.mp he]
    decide
  · rw [hexpected] at he
    cases he

end Sample
end DatadirBench
end TrieRebuild
