import TrieRebuild.Bench.Guarantees
import TrieRebuild.Bench.MakeDatadir

/-! One datadir under any sequence of `make_datadir` and `datadir_bench` processes, each of which may
fail or be killed at any point. -/
namespace TrieRebuild
open Foundation

namespace Session
variable {ε W I K S : Type} [DecidableEq K] [DecidableEq S]

section Runs
variable (D : Dependencies ε W I Account K S) (ι : Type) [Fintype ι] [DecidableEq ι]
variable (made : Set (List String))

/-- What one process does to the database: `make_datadir` with some of the given arguments, or
`datadir_bench` with any. -/
inductive Runs : Datadir Account K S → Datadir Account K S → Prop
  | make {argv : List String} {db : Datadir Account K S} {stop : Stop} {s : MakeWorld K S}
      (hm : argv ∈ made) (h : (MakeDatadir.main ε argv).run { db } stop s) : Runs db s.db
  | bench {argv : List String} {db : Datadir Account K S} {stop : Stop} {s : World Account K S}
      (h : (DatadirBench.main D ι argv).run { db } stop s) : Runs db s.db

abbrev Reaches : Datadir Account K S → Datadir Account K S → Prop :=
  Relation.ReflTransGen (Runs D ι made)

end Runs

variable {D : Dependencies ε W I Account K S} {ι : Type} [Fintype ι] [DecidableEq ι]
variable {made : Set (List String)} {db db' : Datadir Account K S}

/-- Tables made from the hashed state of one database are made from that of another which has the
same one and the same key encoding. -/
theorem derived_congr {T : TrieTables K S} (hh : db'.hashed = db.hashed)
    (hs : db'.settings = db.settings) (h : DatadirBench.Derived D db T) :
    DatadirBench.Derived D db' T := by
  have hadapter : DatadirBench.adapter D db' = DatadirBench.adapter D db := by
    rw [DatadirBench.adapter,hs]
    rfl
  have hwalk : DatadirBench.rebuildWalk D db' = DatadirBench.rebuildWalk D db := by
    rw [DatadirBench.rebuildWalk,hh,hadapter]
  cases h with
  | build h hle => exact .build (hh ▸ h) (hadapter ▸ hle)
  | rebuild h => exact .rebuild (by rw [hwalk,hadapter]; exact h)
  | rebuilt h hT => exact .rebuilt (by rw [hwalk,hadapter]; exact h) (by rw [hadapter]; exact hT)

/-- One process writes to one kind of tables. -/
inductive Effect (D : Dependencies ε W I Account K S) (made : Set (List String))
    (db db' : Datadir Account K S) : Prop
  | untouched (h : db' = db)
  | wrote {argv : List String} {state : MemoryState Account} (hm : argv ∈ made)
      (hs : MakeDatadir.Makes argv state)
      (h : db' = { db with hashed := db.hashed.overwrite state })
  | derived (h : db' = { db with trie := db'.trie }) (hT : DatadirBench.Derived D db db'.trie)

theorem Runs.effect (h : Runs D ι made db db') : Effect D made db db' := by
  cases h with
  | make hm h =>
    cases (MakeDatadir.main_ending h).progressed with
    | untouched hdb hout => exact .untouched hdb
    | wrote hs hdb hout => exact .wrote hm hs hdb
  | bench h =>
    rcases DatadirBench.main_cases h with ⟨args,-,hsound,-⟩ | ⟨msg,-,hdb,-,-⟩
    · rcases hsound.trie with hT | ⟨-,hT⟩
      · refine .untouched ?_
        rw [hsound.frame,hT]
      · exact .derived hsound.frame hT
    · exact .untouched hdb

/-- The tables of a datadir some time after it was `db`, when `states` have been written: the trie
tables are from a build or a rebuild after some of them, or the old ones. -/
structure Tables (D : Dependencies ε W I Account K S) (db : Datadir Account K S)
    (states : List (MemoryState Account)) (db' : Datadir Account K S) : Prop where
  settings : db'.settings = db.settings
  finishBlock : db'.finishBlock = db.finishBlock
  hashed : db'.hashed = states.foldl HashedTables.overwrite db.hashed
  trie : db'.trie = db.trie ∨ ∃ earlier, earlier <+: states ∧
    DatadirBench.Derived D { db with hashed := earlier.foldl HashedTables.overwrite db.hashed }
      db'.trie

theorem Tables.refl (db : Datadir Account K S) : Tables D db [] db :=
  ⟨rfl,rfl,rfl,.inl rfl⟩

theorem Tables.write {states : List (MemoryState Account)} (h : Tables D db states db')
    (state : MemoryState Account) :
    Tables D db (states ++ [state]) { db' with hashed := db'.hashed.overwrite state } where
  settings := h.settings
  finishBlock := h.finishBlock
  hashed := by rw [List.foldl_append,← h.hashed]; rfl
  trie := h.trie.imp_right fun ⟨earlier,he,hT⟩ => ⟨earlier,he.trans (List.prefix_append _ _),hT⟩

theorem Tables.derive {states : List (MemoryState Account)} (h : Tables D db states db')
    {T : TrieTables K S} (hT : DatadirBench.Derived D db' T) :
    Tables D db states { db' with trie := T } where
  settings := h.settings
  finishBlock := h.finishBlock
  hashed := h.hashed
  trie := .inr ⟨states,List.prefix_rfl,derived_congr h.hashed.symm h.settings.symm hT⟩

theorem exists_tables (h : Reaches D ι made db db') :
    ∃ states, (∀ state ∈ states, ∃ argv ∈ made, MakeDatadir.Makes argv state) ∧
      Tables D db states db' := by
  induction h with
  | refl => exact ⟨[],by simp,.refl db⟩
  | tail _ hrun ih =>
    obtain ⟨states,hmade,ht⟩ := ih
    cases hrun.effect with
    | untouched h => exact ⟨states,hmade,h ▸ ht⟩
    | @wrote argv state hm hs h =>
      refine ⟨states ++ [state],?_,h ▸ ht.write state⟩
      intro state' hs'
      rcases List.mem_append.mp hs' with hs' | hs'
      · exact hmade state' hs'
      · obtain rfl := List.mem_singleton.mp hs'
        exact ⟨argv,hm,hs⟩
    | derived h hT => exact ⟨states,hmade,h ▸ ht.derive hT⟩

/-- Whatever processes have been run on a datadir, with whatever arguments, and however each of them
ended: its hashed tables have the states of some `make_datadir` processes put over them, whole and
one after another, its trie tables are the old ones or come from one build or one rebuild over the
hashed state as it was after some of these, and nothing else has changed. -/
theorem session_tables (h : Reaches D ι made db db') :
    ∃ states, (∀ state ∈ states, ∃ argv ∈ made, MakeDatadir.Makes argv state) ∧
      db' = { db with
        hashed := states.foldl HashedTables.overwrite db.hashed
        trie := db'.trie } ∧
      (db'.trie = db.trie ∨ ∃ earlier, earlier <+: states ∧
        DatadirBench.Derived D { db with hashed := earlier.foldl HashedTables.overwrite db.hashed }
          db'.trie) := by
  obtain ⟨states,hmade,ht⟩ := exists_tables h
  refine ⟨states,hmade,?_,ht.trie⟩
  rw [← ht.settings,← ht.finishBlock,← ht.hashed]

/-- Two processes on an empty datadir. -/
theorem session_tables_sample : ∃ db : Datadir Account Nibbles Nibbles,
    Reaches (DatadirBench.sampleOver Account) Unit {["d","3","1"]} {} db ∧
      ∃ states : List (MemoryState Account),
        db.hashed = states.foldl HashedTables.overwrite {} := by
  have hargs : parseArgs (DatadirBench.sampleOver Account).parseRoot ["--datadir","d","--write"] =
    .ok { datadir := "d", write := true } := rfl
  obtain ⟨w,hw⟩ := MakeDatadir.exists_run Unit ["d","3","1"] rfl
    ({} : Datadir Account Nibbles Nibbles)
  obtain ⟨s,hs⟩ := DatadirBench.exists_sample_run hargs rfl w.db
  have h : Reaches (DatadirBench.sampleOver Account) Unit {["d","3","1"]} {} s.db :=
    .tail (.single (.make rfl hw)) (.bench hs)
  obtain ⟨states,-,hdb,-⟩ := session_tables h
  exact ⟨s.db,h,states,by rw [hdb]⟩

section Converges
variable {argv benchArgv : List String} {db₁ db₂ : Datadir Account K S} {w : MakeWorld K S}
variable {args : Args} {s : World Account K S}

/-- After a `make_datadir` that exits with 0, and no others than with its arguments, the hashed state
of an empty database is the synthetic one. The key encoding is the old one. -/
theorem hashed_eq_hashedCopy (hdb : db.hashed = {}) (h₁ : Reaches D ι {argv} db db₁)
    (hw : (MakeDatadir.main ε argv).run { db := db₁ } (.exited 0) w)
    (h₂ : Reaches D ι {argv} w.db db₂) :
    db₂.settings = db.settings ∧ ∃ state, MakeDatadir.Makes argv state ∧
      w.stdout = [state.counts] ∧ db₂.hashed = hashedCopy state := by
  obtain ⟨-,state,hm,hwdb,hout⟩ := (MakeDatadir.main_ending hw).settled
  have hsame : ∀ {states : List (MemoryState Account)},
      (∀ state' ∈ states, ∃ argv' ∈ ({argv} : Set (List String)), MakeDatadir.Makes argv' state') →
        ∀ state' ∈ states, state' = state := by
    intro states hmade state' hs'
    obtain ⟨argv',rfl,hm'⟩ := hmade state' hs'
    exact hm'.unique hm
  obtain ⟨states₁,hmade₁,ht₁⟩ := exists_tables h₁
  obtain ⟨states₂,hmade₂,ht₂⟩ := exists_tables h₂
  refine ⟨by rw [ht₂.settings,hwdb,ht₁.settings],state,hm,hout,?_⟩
  have hwhashed : w.db.hashed = ({} : HashedTables Account).overwrite state := by
    rw [hwdb,ht₁.hashed,HashedTables.overwrite_foldl _ (hsame hmade₁),hdb]
  rw [ht₂.hashed,hwhashed,HashedTables.foldl_overwrite_self _ (hsame hmade₂),overwrite_empty]

/-- A datadir that was empty, on which a `make_datadir` has exited with 0 at some time, and later a
`datadir_bench --write`: whatever other processes were run before them and in between, with the
same arguments for `make_datadir`, and however they ended, the hashed tables are the state that these
arguments ask for, counted by the line of the one process and the line of the other, and the trie
tables are a whole build over it, in which reth's walker finds the root. -/
theorem session_complete (hdb : db.hashed = {}) (h₁ : Reaches D ι {argv} db db₁)
    (hw : (MakeDatadir.main ε argv).run { db := db₁ } (.exited 0) w)
    (h₂ : Reaches D ι {argv} w.db db₂) (hargs : parseArgs D.parseRoot benchArgv = .ok args)
    (hwrite : args.write = true) (hn : args.repeats.toNat ≠ 0)
    (hs : (DatadirBench.main D ι benchArgv).run { db := db₂ } (.exited 0) s) :
    ∃ state, MakeDatadir.Makes argv state ∧ (∀ api, SameState api state s.db.hashed) ∧
      w.stdout = [state.counts] ∧
      (∀ n, .hashedEntries n ∈ s.stdout → n = .ofNat (state.accountCount+state.storageCount)) ∧
      ∃ (root : B256) (ns : List Node) (entries : Multiset UInt64),
        D.Builds s.db.hashed root ns entries ∧
        s.db.trie.nodes (DatadirBench.adapter D db) = ns ∧
        D.serialRoot s.db.hashed (DatadirBench.adapter D db) s.db.trie = .ok root := by
  obtain ⟨hsettings,state,hm,hout,hcopy⟩ := hashed_eq_hashedCopy hdb h₁ hw h₂
  have hend := DatadirBench.main_ending hargs hs
  have hhashed : s.db.hashed = db₂.hashed := by rw [hend.frame]
  have hsame : ∀ api, SameState api state s.db.hashed := by
    rw [hhashed,hcopy]
    exact hm.sameState
  have hadapter : DatadirBench.adapter D db₂ = DatadirBench.adapter D db := by
    rw [DatadirBench.adapter,hsettings]
    rfl
  obtain ⟨root,ns,entries,hb,-,hshown⟩ := hend.settled.written hwrite hn
  have hnodes := hshown.nodes
  have hserial := hshown.serial
  rw [← hhashed] at hb hserial
  rw [hadapter] at hnodes hserial
  refine ⟨state,hm,hsame,hout,fun n hn => ?_,root,ns,entries,hb,hnodes,hserial⟩
  have hcounts := hsame (.standard Account)
  obtain ⟨before,htrue⟩ := hend.stdout.exists_before hn
  cases htrue with
  | hashedEntries => rw [DatadirBench.entriesOf,← hhashed,hcounts.accountCount,hcounts.storageCount]

/-- A session with two processes in between. -/
theorem session_complete_sample :
    ∃ (db₂ : Datadir Account Nibbles Nibbles) (w : MakeWorld Nibbles Nibbles)
      (s : World Account Nibbles Nibbles),
      (MakeDatadir.main Unit ["d","3","1"]).run { db := {} } (.exited 0) w ∧
      Reaches (DatadirBench.sampleOver Account) Unit {["d","3","1"]} w.db db₂ ∧
      (DatadirBench.main (DatadirBench.sampleOver Account) Unit ["--datadir","d","--write"]).run
        { db := db₂ } (.exited 0) s ∧
      s.db.trie.nodes ReferenceReth.pathAdapter = {DatadirBench.builtNode} := by
  have hargs : parseArgs (DatadirBench.sampleOver Account).parseRoot
      ["--datadir","d","--reth-rebuild"] = .ok { datadir := "d", rethRebuild := true } := rfl
  have hargs' : parseArgs (DatadirBench.sampleOver Account).parseRoot ["--datadir","d","--write"] =
    .ok { datadir := "d", write := true } := rfl
  obtain ⟨w,hw⟩ := MakeDatadir.exists_run Unit ["d","3","1"] rfl
    ({} : Datadir Account Nibbles Nibbles)
  obtain ⟨w',hw'⟩ := MakeDatadir.exists_run Unit ["d","3","1"] rfl w.db
  obtain ⟨t,ht⟩ := DatadirBench.exists_sample_run hargs rfl w'.db
  obtain ⟨s,hs⟩ := DatadirBench.exists_sample_run hargs' rfl t.db
  have h₂ : Reaches (DatadirBench.sampleOver Account) Unit {["d","3","1"]} w.db t.db :=
    .tail (.single (.make rfl hw')) (.bench ht)
  obtain ⟨state,-,-,-,-,root,ns,entries,⟨-,hns,-⟩,hnodes,-⟩ :=
    session_complete rfl .refl hw h₂ hargs' rfl (by decide) hs
  exact ⟨t.db,w,s,hw,h₂,hs,hnodes.trans hns⟩

end Converges
end Session
end TrieRebuild
