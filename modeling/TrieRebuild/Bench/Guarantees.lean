import TrieRebuild.Bench.CleanRuns
import TrieRebuild.Bench.Exits

/-! Whatever happens to a `datadir_bench` process: only the trie tables change, its lines are true,
its exit status says what went wrong, and if nothing did the tables are complete. -/
namespace TrieRebuild
open Foundation

namespace DatadirBench
variable {ε W I Account K S : Type} [DecidableEq K] [DecidableEq S]
variable {D : Dependencies ε W I Account K S} {ι : Type} [Fintype ι] [DecidableEq ι]
variable {argv : List String} {args : Args} {db : Datadir Account K S} {s : World Account K S}
variable {stop : Stop}

/-- A process with well-formed arguments. -/
theorem main_ending (hargs : parseArgs D.parseRoot argv = .ok args)
    (h : (main D ι argv).run { db } stop s) : Ending D ι args db stop s := by
  have hstart : Working D ι args db ({ db } : World Account K S) :=
    ⟨⟨rfl,.inl rfl,.nil⟩,rfl⟩
  have hexpected : Expected args ({ db } : World Account K S) :=
    fun _ hm => absurd hm List.not_mem_nil
  refine Process.wp_run ?_ h
  rw [main,parseArgsOrExit,hargs]
  refine Process.wp_bind (Process.wp_pure (Process.wp_bind (wp_expect hstart fun threads s' hs' => ?_)))
  rw [hs'.1,hs'.2]
  split_ifs with hw
  · exact Process.wp_mono (wp_readWrite hstart hexpected) fun _ t ht =>
      ⟨⟨ht.1.toSound,.settled ht.2⟩,ht.1.killed⟩
  · exact Process.wp_mono (wp_readOnly hstart hexpected (Bool.eq_false_of_not_eq_true hw))
      fun _ t ht => ⟨⟨ht.1.toSound,.settled ht.2⟩,ht.1.killed⟩

/-- What a process with bad arguments leaves. -/
structure Rejected (msg : String) (db : Datadir Account K S) (stop : Stop)
    (s : World Account K S) : Prop where
  db : s.db = db
  stdout : s.stdout = []
  stop : stop = .killed ∨ stop = .exited 2 ∧ s.stderr = [.usage msg] ∨
    stop = .exited 101 ∧ s.stderr = []

theorem main_rejected {msg : String} (hargs : parseArgs D.parseRoot argv = .error msg)
    (h : (main D ι argv).run { db } stop s) : Rejected msg db stop s := by
  refine Process.wp_run ?_ h
  rw [main,parseArgsOrExit,hargs]
  refine Process.wp_bind (Process.wp_bind (Process.wp_either (Process.wp_act (fun _ s' hs' => ?_) ?_)
    (Process.wp_exit ?_ ?_)))
  · rw [hs']
    exact Process.wp_exit ⟨rfl,rfl,.inr (.inl ⟨rfl,rfl⟩)⟩ ⟨rfl,rfl,.inl rfl⟩
  · exact ⟨rfl,rfl,.inl rfl⟩
  · exact ⟨rfl,rfl,.inr (.inr ⟨rfl,rfl⟩)⟩
  · exact ⟨rfl,rfl,.inl rfl⟩

theorem main_cases (h : (main D ι argv).run { db } stop s) :
    (∃ args, parseArgs D.parseRoot argv = .ok args ∧ Ending D ι args db stop s) ∨
      ∃ msg, parseArgs D.parseRoot argv = .error msg ∧ Rejected msg db stop s := by
  cases hargs : parseArgs D.parseRoot argv with
  | ok args => exact .inl ⟨args,rfl,main_ending hargs h⟩
  | error msg => exact .inr ⟨msg,rfl,main_rejected hargs h⟩

/-- Whatever becomes of the process, its exit status tells: 0 that nothing went wrong and every
root shown is the expected one, 1 that a root shown is not the expected one or not the one reth's
walker finds in the tables, 2 that the arguments are bad and nothing was touched, 101 that calls
have panicked. There is no other. -/
theorem exit_status (h : (main D ι argv).run { db } stop s) :
    (stop = .exited 0 → ∃ args, parseArgs D.parseRoot argv = .ok args ∧ s.stderr = [] ∧
      ∀ line ∈ s.stdout, ∀ root, line.root? = some root →
        ∀ expected, args.expectedRoot = some expected → root = expected) ∧
    (stop = .exited 1 → ∃ args complaint, parseArgs D.parseRoot argv = .ok args ∧
      s.stderr = [complaint] ∧ Mismatch D args db s.stdout s.db.trie complaint) ∧
    (stop = .exited 2 → ∃ msg, parseArgs D.parseRoot argv = .error msg ∧
      s = { db, stderr := [.usage msg] }) ∧
    (stop = .exited 101 → ∀ complaint ∈ s.stderr, ∃ msg, complaint = .panicked msg) ∧
    (stop = .killed ∨ ∃ code ∈ [0,1,2,101], stop = .exited code) := by
  rcases main_cases h with ⟨args,hargs,-,hstatus⟩ | ⟨msg,hargs,hdb,hout,hstop⟩
  · cases hstatus with
    | killed =>
      refine ⟨?_,?_,?_,?_,.inl rfl⟩ <;> intro hs <;> cases hs
    | panicked hc =>
      refine ⟨?_,?_,?_,fun _ => hc,.inr ⟨101,by simp,rfl⟩⟩ <;> intro hs <;> cases hs
    | mismatch herr hc =>
      refine ⟨?_,fun _ => ⟨args,_,hargs,herr,hc⟩,?_,?_,.inr ⟨1,by simp,rfl⟩⟩ <;> intro hs <;> cases hs
    | settled hs =>
      refine ⟨fun _ => ⟨args,hargs,hs.stderr,hs.expected⟩,?_,?_,?_,.inr ⟨0,by simp,rfl⟩⟩ <;>
        intro hs <;> cases hs
  · rcases hstop with rfl | ⟨rfl,herr⟩ | ⟨rfl,herr⟩
    · refine ⟨?_,?_,?_,?_,.inl rfl⟩ <;> intro hs <;> cases hs
    · refine ⟨?_,?_,fun _ => ⟨msg,hargs,?_⟩,?_,.inr ⟨2,by simp,rfl⟩⟩
      · intro hs
        cases hs
      · intro hs
        cases hs
      · cases s
        cases hdb
        cases hout
        cases herr
        rfl
      · intro hs
        cases hs
    · refine ⟨?_,?_,?_,?_,.inr ⟨101,by simp,rfl⟩⟩
      · intro hs
        cases hs
      · intro hs
        cases hs
      · intro hs
        cases hs
      · intro _ c hc
        rw [herr] at hc
        cases hc

/-- A `--write` process that comes to its end has complained of nothing. -/
theorem exit_status_sample : ∃ s, (main sampleDependencies Unit ["--datadir","d","--write"]).run
    { db := {} } (.exited 0) s ∧ s.stderr = [] := by
  have hargs : parseArgs sampleDependencies.parseRoot ["--datadir","d","--write"] =
    .ok { datadir := "d", write := true } := rfl
  obtain ⟨s,hs⟩ := exists_sample_run hargs rfl {}
  obtain ⟨args,-,herr,-⟩ := (exit_status hs).1 rfl
  exact ⟨s,hs,herr⟩

/-- Wherever the process is stopped, it has changed nothing but the trie tables, and these only if a
flag says so. They are as they were, or come from one build or one rebuild over the hashed state:
nodes the generator handed over, or what the first walks of a rebuild found. -/
theorem only_trie_tables (h : (main D ι argv).run { db } stop s) :
    s.db = { db with trie := s.db.trie } ∧
    (s.db.trie = db.trie ∨ ∃ args, parseArgs D.parseRoot argv = .ok args ∧ writes args = true ∧
      Derived D db s.db.trie) := by
  rcases main_cases h with ⟨args,hargs,hsound,-⟩ | ⟨msg,hargs,hdb,-,-⟩
  · exact ⟨hsound.frame,hsound.trie.imp_right fun hT => ⟨args,hargs,hT⟩⟩
  · rw [hdb]
    exact ⟨rfl,.inl rfl⟩

/-- The checkpoint survives clearing, a rebuild and a build. -/
theorem only_trie_tables_sample : ∃ s, (main sampleDependencies Unit
    ["--datadir","d","--clear-trie-tables","--reth-rebuild","--write"]).run
      { db := { finishBlock := some 5 } } (.exited 0) s ∧ s.db.finishBlock = some 5 := by
  have hargs : parseArgs sampleDependencies.parseRoot
      ["--datadir","d","--clear-trie-tables","--reth-rebuild","--write"] =
    .ok { datadir := "d", clearTrieTables := true, rethRebuild := true, write := true } := rfl
  obtain ⟨s,hs⟩ := exists_sample_run hargs rfl { finishBlock := some 5 }
  refine ⟨s,hs,?_⟩
  rw [(only_trie_tables hs).1]

omit [Fintype ι] in
theorem Ending.settled (h : Ending D ι args db (.exited 0) s) : Settled D args db s := by
  cases h.status with
  | settled hs => exact hs

/-- What a root shown among the last lines says of the root that was expected. -/
theorem Settled.expected_of_shown (h : Settled D args db s) {line : Output} {root : B256}
    {ns : List Node} (hs : Shown D args db s line root ns) (hr : line.root? = some root)
    {expected : B256} (he : args.expectedRoot = some expected) : root = expected :=
  h.expected line (hs.lines.subset List.mem_cons_self) root hr expected he

/-- A `--write` process that exits with 0 has left the nodes of its last build in the tables, all of
them and no others. reth's walker finds the build's root in them, which is the expected one, and the
last lines show the root, the counts and the digest of these nodes. -/
theorem write_complete (hargs : parseArgs D.parseRoot argv = .ok args) (hw : args.write = true)
    (hn : args.repeats.toNat ≠ 0) (h : (main D ι argv).run { db } (.exited 0) s) :
    ∃ (root : B256) (ns : List Node) (entries : Multiset UInt64),
      D.Builds db.hashed root ns entries ∧
      s.db.trie.nodes (adapter D db) = ns ∧
      D.serialRoot db.hashed (adapter D db) s.db.trie = .ok root ∧
      (∀ expected, args.expectedRoot = some expected → root = expected) ∧
      .wrote args.repeats root (walkedOf entries) (writtenOf args ns)::
        (matchedLines args (.wrote args.repeats root (walkedOf entries) (writtenOf args ns)) ++
          [.tables (tablesOf D s.db.trie ns),.walk root]) <:+ s.stdout := by
  have hs := (main_ending hargs h).settled
  obtain ⟨root,ns,entries,hb,-,hshown⟩ := hs.written hw hn
  exact ⟨root,ns,entries,hb,hshown.nodes,hshown.serial,fun _ he => hs.expected_of_shown hshown rfl he,
    hshown.lines⟩

/-- One build, of one node. -/
theorem write_complete_sample :
    ∃ s, (main sampleDependencies Unit ["--datadir","d","--write"]).run { db := {} } (.exited 0) s ∧
      s.db.trie.nodes (adapter sampleDependencies {}) = {builtNode} := by
  have hargs : parseArgs sampleDependencies.parseRoot ["--datadir","d","--write"] =
    .ok { datadir := "d", write := true } := rfl
  obtain ⟨s,hs⟩ := exists_sample_run hargs rfl {}
  obtain ⟨root,ns,entries,⟨-,hns,-⟩,hnodes,-⟩ := write_complete hargs rfl (by decide) hs
  exact ⟨s,hs,hnodes.trans hns⟩

/-- A `--reth-rebuild` process that exits with 0 has left the nodes of the walks, all of them and no
others, whatever was in the tables. The serial walker finds the rebuild's root in them, which is the
expected one, and the last lines show the totals and the digest of these nodes. -/
theorem rebuild_complete (hargs : parseArgs D.parseRoot argv = .ok args)
    (hr : args.rethRebuild = true) (hw : args.write = false) {ws : List (Walk I)} {root : B256}
    {ns : List Node} (hrun : Completes (rebuildWalk D db) (adapter D db) ws root)
    (hns : SplitsNodes (ws.map fun w => w.2.updates) ns)
    (h : (main D ι argv).run { db } (.exited 0) s) :
    s.db.trie.nodes (adapter D db) = ns ∧
    D.serialRoot db.hashed (adapter D db) s.db.trie = .ok root ∧
    (∀ expected, args.expectedRoot = some expected → root = expected) ∧
    ∃ done : Rebuilt, done = ⟨root,(ws.map fun w => w.2.entries).sum,ns.length,ws.length⟩ ∧
      .rebuilt done::(matchedLines args (.rebuilt done) ++
        [.tables (tablesOf D s.db.trie ns),.walk root]) <:+ s.stdout := by
  have hs := (main_ending hargs h).settled
  obtain ⟨ws',root',ns',hrun',hT,hshown⟩ := hs.rebuilt hr hw
  obtain ⟨rfl,rfl⟩ := hrun.unique hrun'
  have hnodes : s.db.trie.nodes (adapter D db) = ns := by
    apply hns.nodes_eq
    rw [hT]
    exact rows_of_updates _ hns.noRemovals hns.notDeleted
  have hdigest : tablesOf D s.db.trie ns' = tablesOf D s.db.trie ns :=
    tablesOf_congr (hshown.nodes.symm.trans hnodes) _
  have hdone : { Rebuilt.start.after ws with root := root' } =
      (⟨root',(ws.map fun w => w.2.entries).sum,ns.length,ws.length⟩ : Rebuilt) := by
    have hcard := hns.card_eq
    rw [Multiset.coe_card,List.map_map] at hcard
    rw [← hcard]
    simp only [Rebuilt.after,Rebuilt.start,Nat.zero_add]
    rfl
  have hlines := hshown.lines
  rw [hdone,hdigest] at hlines
  exact ⟨hnodes,hshown.serial,fun _ he => hs.expected_of_shown hshown rfl he,_,rfl,hlines⟩

/-- One walk, of one node. -/
theorem rebuild_complete_sample :
    ∃ s, (main sampleDependencies Unit ["--datadir","d","--reth-rebuild"]).run { db := {} }
      (.exited 0) s ∧
        s.db.trie.nodes (adapter sampleDependencies {}) = {builtNode} := by
  have hargs : parseArgs sampleDependencies.parseRoot ["--datadir","d","--reth-rebuild"] =
    .ok { datadir := "d", rethRebuild := true } := rfl
  obtain ⟨s,hs⟩ := exists_sample_run hargs rfl {}
  have hns := splitsNodes_collect [[builtNode]] (by decide) (by decide)
  exact ⟨s,hs,(rebuild_complete hargs rfl rfl (sample_completes {}) hns hs).1⟩

/-- What a `--write` process has left is what later read-only processes find, however they end: the
serial walk's root is the one shown last, a digest of the tables is the one shown with it, and, if
the generator builds the same every time, so are root and digest of another build. -/
theorem reads_back (hargs : parseArgs D.parseRoot argv = .ok args) (hw : args.write = true)
    (hn : args.repeats.toNat ≠ 0) (h : (main D ι argv).run { db } (.exited 0) s)
    {argv' : List String} {args' : Args} (hargs' : parseArgs D.parseRoot argv' = .ok args')
    (hw' : writes args' = false) {stop : Stop} {s' : World Account K S}
    (h' : (main D ι argv').run { db := s.db } stop s') :
    s'.db = s.db ∧ ∃ tables root, [.tables tables,.walk root] <:+ s.stdout ∧
      (∀ root', .serial root' ∈ s'.stdout → root' = root) ∧
      (∀ tables', .tables tables' ∈ s'.stdout → tables' = tables) ∧
      ((∀ {root root' ns ns' entries entries'}, D.Builds db.hashed root ns entries →
          D.Builds db.hashed root' ns' entries' → root = root' ∧ ns = ns') →
        ∀ run root' walked digest, .digested run root' walked digest ∈ s'.stdout →
          root' = root ∧ digest = tables.digest) := by
  have hend := main_ending hargs h
  have hend' := main_ending hargs' h'
  obtain ⟨root,ns,entries,hb,-,hshown⟩ := hend.settled.written hw hn
  have hadapter : adapter D s.db = adapter D db := by rw [hend.frame]; rfl
  have hhashed : s.db.hashed = db.hashed := by rw [hend.frame]
  have hleft : ∀ {T : TrieTables K S}, Leaves D args' s.db T → T = s.db.trie := fun hT =>
    hT.resolve_right fun hn => Bool.noConfusion (hw'.symm.trans hn.1)
  refine ⟨?_,tablesOf D s.db.trie ns,root,?_,fun root' hm => ?_,fun tables' hm => ?_,
    fun hsame run root' walked digest hm => ?_⟩
  · rw [hend'.frame,hleft hend'.trie]
  · exact (List.suffix_append _ _).trans ((List.suffix_cons _ _).trans hshown.lines)
  · obtain ⟨before,htrue⟩ := hend'.stdout.exists_before hm
    cases htrue with
    | serial _ _ _ hroot =>
      rw [hhashed,hadapter,hshown.serial] at hroot
      cases hroot
      rfl
  · obtain ⟨before,htrue⟩ := hend'.stdout.exists_before hm
    generalize hline : Output.tables tables' = line at htrue
    cases htrue with
    | @tables T ns' hT hns' =>
      cases hline
      rw [hleft hT,hadapter] at hns'
      rw [hleft hT]
      exact tablesOf_congr (hns'.symm.trans hshown.nodes) _
    | _ => cases hline
  · obtain ⟨before,htrue⟩ := hend'.stdout.exists_before hm
    generalize hline : Output.digested run root' walked digest = line at htrue
    cases htrue with
    | @digested _ _ ns' _ _ hrun hb' =>
      cases hline
      rw [hhashed] at hb'
      obtain ⟨hroot,hns'⟩ := hsame hb' hb
      exact ⟨hroot,NodeDigest.ofStream_eq_of_coe D.hashOne D.packing hns'⟩
    | _ => cases hline

/-- The sample generator builds the same every time. -/
theorem sample_builds_same {Account : Type} {hashed : HashedTables Account} {root root' : B256}
    {ns ns' : Multiset Node} {entries entries' : Multiset UInt64}
    (h : (sampleOver Account).Builds hashed root ns entries)
    (h' : (sampleOver Account).Builds hashed root' ns' entries') : root = root' ∧ ns = ns' := by
  obtain ⟨hroot,hns,-⟩ := h
  obtain ⟨hroot',hns',-⟩ := h'
  exact ⟨hroot.trans hroot'.symm,hns.trans hns'.symm⟩

/-- A build is written, and another one digested. -/
theorem reads_back_sample : ∃ s s' tables,
    (main sampleDependencies Unit ["--datadir","d","--write"]).run { db := {} } (.exited 0) s ∧
      (main sampleDependencies Unit ["--datadir","d"]).run { db := s.db } (.exited 0) s' ∧
        s'.db = s.db ∧ .tables tables ∈ s.stdout ∧
        ∀ run root walked digest, .digested run root walked digest ∈ s'.stdout →
          digest = tables.digest := by
  have hargs : parseArgs sampleDependencies.parseRoot ["--datadir","d","--write"] =
    .ok { datadir := "d", write := true } := rfl
  have hargs' : parseArgs sampleDependencies.parseRoot ["--datadir","d"] =
    .ok { datadir := "d" } := rfl
  obtain ⟨s,hs⟩ := exists_sample_run hargs rfl {}
  obtain ⟨s',hs'⟩ := exists_sample_run hargs' rfl s.db
  obtain ⟨hdb,tables,root,hlines,-,-,hdigest⟩ := reads_back hargs rfl (by decide) hs hargs' rfl hs'
  exact ⟨s,s',tables,hs,hs',hdb,hlines.subset List.mem_cons_self,
    fun run root' walked digest hm => (hdigest sample_builds_same run root' walked digest hm).2⟩

/-- Whatever became of a process, a later `--write` process that exits with 0 leaves the database it
would have left if the first had never run, if the generator builds the same every time. -/
theorem rerun_recovers (h : (main D ι argv).run { db } stop s)
    {argv' : List String} {args' : Args} (hargs : parseArgs D.parseRoot argv' = .ok args')
    (hw : args'.write = true) (hn : args'.repeats.toNat ≠ 0)
    (hsame : ∀ {root root' ns ns' entries entries'}, D.Builds db.hashed root ns entries →
      D.Builds db.hashed root' ns' entries' → root = root' ∧ ns = ns')
    {s' s'' : World Account K S} (h' : (main D ι argv').run { db := s.db } (.exited 0) s')
    (h'' : (main D ι argv').run { db } (.exited 0) s'') : s'.db = s''.db := by
  have hframe : s.db = { db with trie := s.db.trie } := by
    rcases main_cases h with ⟨args,-,hsound,-⟩ | ⟨msg,-,hdb,-,-⟩
    · exact hsound.frame
    · rw [hdb]
  have hend' := main_ending hargs h'
  have hend'' := main_ending hargs h''
  have hadapter : adapter D s.db = adapter D db := by rw [hframe]; rfl
  obtain ⟨root,ns,entries,hb,hT,-⟩ := hend'.settled.written hw hn
  obtain ⟨root',ns',entries',hb',hT',-⟩ := hend''.settled.written hw hn
  have hhashed : s.db.hashed = db.hashed := by rw [hframe]
  rw [hhashed] at hb
  have htrie : s'.db.trie = s''.db.trie := by
    rw [hT,hT',hadapter]
    exact TrieTables.overlaid_perm _ _ (Multiset.coe_eq_coe.mp (hsame hb hb').2)
      (by simpa using D.distinct (D.handsOver hb))
  rw [hend''.frame,hend'.frame,hframe,htrie]

/-- A first process that did come to its end, over a checkpoint. -/
theorem rerun_recovers_sample : ∃ s s' s'',
    (main sampleDependencies Unit ["--datadir","d","--reth-rebuild"]).run
      { db := { finishBlock := some 5 } } (.exited 0) s ∧
    (main sampleDependencies Unit ["--datadir","d","--write"]).run { db := s.db } (.exited 0) s' ∧
    (main sampleDependencies Unit ["--datadir","d","--write"]).run
      { db := { finishBlock := some 5 } } (.exited 0) s'' ∧ s'.db = s''.db := by
  have hargs : parseArgs sampleDependencies.parseRoot ["--datadir","d","--reth-rebuild"] =
    .ok { datadir := "d", rethRebuild := true } := rfl
  have hargs' : parseArgs sampleDependencies.parseRoot ["--datadir","d","--write"] =
    .ok { datadir := "d", write := true } := rfl
  obtain ⟨s,hs⟩ := exists_sample_run hargs rfl { finishBlock := some 5 }
  obtain ⟨s',hs'⟩ := exists_sample_run hargs' rfl s.db
  obtain ⟨s'',hs''⟩ := exists_sample_run hargs' rfl { finishBlock := some 5 }
  exact ⟨s,s',s'',hs,hs',hs'',
    rerun_recovers hs hargs' rfl (by decide) sample_builds_same hs' hs''⟩

end DatadirBench
end TrieRebuild
