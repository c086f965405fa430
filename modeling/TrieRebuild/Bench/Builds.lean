import TrieRebuild.Bench.Calls

/-! The weakest preconditions of the builds, the rebuild and the checks of what they wrote. -/
namespace TrieRebuild
open Foundation

namespace DatadirBench
variable {ε W I Account K S : Type} [DecidableEq K] [DecidableEq S]
variable {D : Dependencies ε W I Account K S} {ι : Type} [DecidableEq ι]
variable {args : Args} {db : Datadir Account K S} {s : World Account K S}

section Checks
variable {Q : Unit → World Account K S → Prop}

theorem wp_printTrieTablesDigest (h : Working D ι args db s) {tx : Datadir Account K S}
    (htx : tx = s.db) {ns : List Node} (hns : s.db.trie.nodes (adapter D db) = ns)
    (hq : Working D ι args db (s.print (.tables (tablesOf D s.db.trie ns))) →
      Q () (s.print (.tables (tablesOf D s.db.trie ns)))) :
    Process.wp (printTrieTablesDigest D tx) Q (Ending D ι args db) s := by
  subst htx
  refine Process.wp_bind (wp_expect h ?_)
  rintro tables s' ⟨⟨C,faults,fault,htables⟩,rfl⟩
  have hdigest := (htables.of_ok rfl).2.2
  rw [h.adapter] at hdigest
  rw [digestTables_eq hdigest hns]
  exact wp_println h (.tables h.trie hns) hq

theorem wp_rethSerialRoot {Q : B256 → World Account K S → Prop} (h : Working D ι args db s)
    {msg : String} {tx : Datadir Account K S} (htx : tx = s.db)
    (hq : ∀ root, D.serialRoot db.hashed (adapter D db) s.db.trie = .ok root → Q root s) :
    Process.wp (rethSerialRoot D msg tx) Q (Ending D ι args db) s := by
  subst htx
  refine wp_expect h ?_
  rintro root s' ⟨hroot,rfl⟩
  rw [h.adapter,h.hashed] at hroot
  exact hq root hroot

theorem wp_checkWrittenTables (h : Working D ι args db s) {line : Output} {root : B256}
    (hl : line::matchedLines args line <:+ s.stdout) (hr : line.root? = some root) {ns : List Node}
    (hns : s.db.trie.nodes (adapter D db) = ns)
    (hq : D.serialRoot db.hashed (adapter D db) s.db.trie = .ok root →
      Working D ι args db
        (s.after s.db.trie [.tables (tablesOf D s.db.trie ns),.walk root] []) →
      Q () (s.after s.db.trie [.tables (tablesOf D s.db.trie ns),.walk root] [])) :
    Process.wp (checkWrittenTables D s.db root) Q (Ending D ι args db) s := by
  refine Process.wp_bind (wp_printTrieTablesDigest h rfl hns fun hs => ?_)
  refine Process.wp_bind (wp_rethSerialRoot hs rfl fun walked hwalked => ?_)
  have hboth : (s.print (.tables (tablesOf D s.db.trie ns))).print (.walk root) =
      s.after s.db.trie [.tables (tablesOf D s.db.trie ns),.walk root] [] := by
    simp [World.print,World.after]
  have hlines : line::(matchedLines args line ++ [.tables (tablesOf D s.db.trie ns)]) <:+
      (s.print (.tables (tablesOf D s.db.trie ns))).stdout := by
    rw [← List.cons_append]
    exact (List.suffix_append_inj_of_length_eq rfl).mpr ⟨hl,rfl⟩
  split_ifs with heq
  · subst heq
    rw [← hboth] at hq
    exact wp_println hs (.walk h.trie hns hlines hr hwalked) (hq hwalked)
  · exact wp_mismatch hs (.walked hns hlines hr hwalked heq)

theorem wp_clear (h : Working D ι args db s) (hw : writes args = true)
    (hq : Working D ι args db (s.after {} [] []) → Q () (s.after {} [] [])) :
    Process.wp (clear ε) Q (Ending D ι args db) s := by
  refine Process.wp_bind (Process.wp_transaction (clearTrieTables_yields s.db.trie) s.after_nil
    ?_ (fun _ => wp_panicked h _) h.killed)
  exact Process.wp_pure (hq (h.after (.inr ⟨hw,.rebuild (.nil _ _)⟩) .nil))

end Checks

/-- Lines of a progress sink that counts the hashed entries. -/
theorem truthful_progress (hf : args.write = true ∨ Digests args) {ρ : Reporting ι} {now : ℕ}
    (h : Reporting.Reaches (.fresh ι (entriesOf db.hashed) progressInterval now) ρ)
    (lines : List Output) :
    Justified (fun before => Truthful D ι args db (lines ++ before))
      (ρ.shared.lines.map .progress) := by
  refine .of_forall fun line hm before => ?_
  obtain ⟨l,hl,rfl⟩ := List.mem_map.mp hm
  exact .progress hf h hl

/-- Lines of a rebuild, with the totals of its walks so far. -/
theorem truthful_chunks (hf : args.rethRebuild = true) {ws : List (Walk I)}
    (h : (∃ state T, Walks (rebuildWalk D db) (adapter D db) none {} ws state T) ∨
      ∃ root, Completes (rebuildWalk D db) (adapter D db) ws root)
    {logged : List Rebuilt} (hsub : logged ⊆ loggedAfter ws) (lines : List Output) :
    Justified (fun before => Truthful D ι args db (lines ++ before)) (logged.map .chunk) := by
  refine .of_forall fun line hm before => ?_
  obtain ⟨totals,ht,rfl⟩ := List.mem_map.mp hm
  exact .chunk hf h (hsub ht)

theorem walked_eq {total : UInt64} {interval now : ℕ} {ρ : Reporting ι}
    (h : Reporting.Reaches (.fresh ι total interval now) ρ) :
    ρ.shared.sink.walked = walkedOf ρ.shared.added := by
  apply UInt64.toNat_inj.mp
  rw [h.sound.walked.shared.walked,walkedOf,UInt64.toNat_ofNat',sumUpTo,List.take_length,
    Multiset.map_coe,Multiset.sum_coe]

theorem wp_rethRebuild {Q : Rebuilt → World Account K S → Prop} (h : Working D ι args db s)
    (hf : args.rethRebuild = true)
    (hq : ∀ ws root T, Completes (rebuildWalk D db) (adapter D db) ws root →
      T.row = (ws.map fun w => w.2.updates).foldl
        (fun f u => (u.patch (adapter D db)).apply f) (fun _ => none) →
      Working D ι args db (s.after T ((loggedAfter ws).map .chunk) []) →
      Q { Rebuilt.start.after ws with root } (s.after T ((loggedAfter ws).map .chunk) [])) :
    Process.wp (RethRebuild D) Q (Ending D ι args db) s := by
  have hw : writes args = true := by simp [writes,hf]
  constructor
  · intro a s' hs'
    cases hs' with
    | done hrun =>
      rcases rethRebuild_left (fun _ _ _ => D.noRemovals) hrun with ⟨e,-,he⟩ | hleft
      · cases he
      · rw [h.hashed,h.settings] at hleft
        cases hleft with
        | completed hcompletes htables hlogged =>
          rw [hlogged]
          exact hq _ _ _ hcompletes htables (h.after (.inr ⟨hw,.rebuilt hcompletes htables⟩)
            (truthful_chunks hf (.inr ⟨_,hcompletes⟩) (List.Subset.refl _) _))
  · intro stop s' hs'
    cases hs' with
    | @stopped _ _ _ result loop _ lines _ hrun hs =>
      rcases rethRebuild_left (fun _ _ _ => D.noRemovals) hrun with ⟨e,-,he⟩ | hleft
      · cases he
        rw [List.take_nil]
        exact h.halts h.trie .nil hs
      · rw [h.hashed,h.settings] at hleft
        cases hleft with
        | failed hwalks hlogged hcause =>
          exact h.halts (.inr ⟨hw,.rebuild hwalks⟩) (truthful_chunks hf (.inl ⟨_,_,hwalks⟩)
            (hlogged ▸ List.take_subset _ _) _) hs
        | completed hcompletes htables hlogged =>
          exact h.halts (.inr ⟨hw,.rebuilt hcompletes htables⟩) (truthful_chunks hf
            (.inr ⟨_,hcompletes⟩) (hlogged ▸ List.take_subset _ _) _) hs

section Sink
variable {faults : ℕ → ℕ → Option ε} {chunkNodes : ℕ} {σ : MdbxWriteSink ι ε K S}

/-- A sink over empty tables has stored only nodes it was handed. -/
theorem nodes_le_called (hashed : HashedTables Account) {packed : Bool}
    (hσ : MdbxWriteSink.Reaches D.reth packed (max chunkNodes 1) D.debugAssertions faults
      (.start {}) σ) (hb : D.HandsOver hashed σ.called) :
    σ.tables.nodes (D.reth.adapter packed) ≤ σ.called := by
  have hdistinct := D.distinct hb
  have hnodup : σ.called.Nodup :=
    Multiset.coe_nodup.mp (Multiset.Nodup.of_map _ hdistinct)
  have hcalls := MdbxWriteSink.callInv_of_reaches hσ hnodup
  have haccepted : (σ.accepted : Multiset Node) ≤ σ.called :=
    (Multiset.le_iff_subset (Multiset.coe_nodup.mpr hcalls.nodup)).mpr hcalls.subset
  obtain ⟨m,received,lost,hp⟩ := MdbxWriteSink.persisted_of_reaches
    (lt_of_lt_of_le Nat.one_pos (le_max_right _ _)) hσ
  have htake : ((σ.accepted.take m : List Node) : Multiset Node) ≤ σ.accepted :=
    Multiset.coe_le.mpr (List.take_sublist m _).subperm
  have hkeys : ((σ.accepted.take m).map Node.key).Nodup := by
    have hm := Multiset.nodup_of_le (Multiset.map_le_map (htake.trans haccepted)) hdistinct
    simpa using hm
  rw [hp.tables,TrieTables.nodes_overlaid_empty _ hkeys]
  exact (Multiset.coe_le.mpr List.filter_sublist.subperm).trans (htake.trans haccepted)

/-- A sink over empty tables that finishes well has stored all it was handed. -/
theorem tables_eq_called [Fintype ι] {hashed : HashedTables Account} {packed : Bool}
    (hσ : MdbxWriteSink.Reaches D.reth packed (max chunkNodes 1) D.debugAssertions faults
      (.start {}) σ) (hb : D.HandsOver hashed σ.called) {written : Written}
    (hf : σ.finish = .returned (.ok written)) :
    σ.tables = ({} : TrieTables K S).overlaid (D.reth.adapter packed) σ.called ∧
      written = ⟨σ.called.length,σ.called.length ⌈/⌉ max chunkNodes 1⟩ := by
  obtain ⟨hcalled,-,htables,hchunks,hnodes⟩ := MdbxWriteSink.finish_ok
    (lt_of_lt_of_le Nat.one_pos (le_max_right _ _)) hσ hf
  have hdistinct : (σ.called.map Node.key).Nodup := by simpa using D.distinct hb
  have hstorable : ∀ n ∈ σ.called, n.storable = true := by
    intro n hn
    rw [Node.storable,D.storable hb n hn]
    rfl
  have hperm := Multiset.coe_eq_coe.mp hcalled
  constructor
  · rw [htables,TrieTables.overlaid_perm _ _ hperm hdistinct]
  · have hall := hnodes hdistinct
    rw [List.filter_eq_self.mpr hstorable] at hall
    cases written
    exact congrArg₂ Written.mk hall hchunks

/-- Tables overlaid with what a build handed over hold these nodes. -/
theorem nodes_overlaid {hashed : HashedTables Account} {ns : List Node}
    (hb : D.HandsOver hashed ns) (A : TrieTableAdapter K S) :
    (({} : TrieTables K S).overlaid A ns).nodes A = ns := by
  have hstorable : ∀ n ∈ ns, n.storable = true := by
    intro n hn
    rw [Node.storable,D.storable hb n hn]
    rfl
  rw [TrieTables.nodes_overlaid_empty _ (by simpa using D.distinct hb),
    List.filter_eq_self.mpr hstorable]

end Sink

theorem wp_buildWritten [Fintype ι] {Q : Built → World Account K S → Prop}
    (h : Working D ι args db s) (hf : args.write = true) (htrie : s.db.trie = {})
    (hq : ∀ (root : B256) (ns : List Node) (entries : Multiset UInt64) (T : TrieTables K S)
      (lines : List Line), D.Builds db.hashed root ns entries →
      T = ({} : TrieTables K S).overlaid (adapter D db) ns →
      Working D ι args db (s.after T (lines.map .progress) []) →
      Q ⟨root,walkedOf entries,writtenOf args ns⟩ (s.after T (lines.map .progress) [])) :
    Process.wp (BuildWritten D ι args.chunkNodes (entriesOf db.hashed)) Q (Ending D ι args db) s := by
  have hw : writes args = true := by simp [writes,hf]
  constructor
  · intro a s' hs'
    cases hs' with
    | @done _ faults σ ρ now root written hσ hfin hρ hidle hb =>
      rw [h.settings,htrie] at hσ
      rw [h.hashed] at hb
      obtain ⟨htables,rfl⟩ := tables_eq_called hσ (D.handsOver hb) hfin
      rw [walked_eq hρ]
      refine hq root σ.called _ _ _ hb htables
        (h.after (.inr ⟨hw,.build (D.handsOver hb) ?_⟩) (truthful_progress (.inl hf) hρ _))
      rw [htables]
      exact (nodes_overlaid (D.handsOver hb) _).le
  · intro stop s' hs'
    cases hs' with
    | @stopped _ faults σ ρ now _ complaints hσ hρ hb hs =>
      rw [h.settings,htrie] at hσ
      rw [h.hashed] at hb
      exact h.halts (.inr ⟨hw,.build hb (nodes_le_called db.hashed hσ hb)⟩)
        (truthful_progress (.inl hf) hρ _) hs

theorem wp_buildDigest [Fintype ι] {Q : Digested → World Account K S → Prop}
    (h : Working D ι args db s) (hf : Digests args)
    (hq : ∀ (root : B256) (ns : List Node) (entries : Multiset UInt64) (lines : List Line),
      D.Builds db.hashed root ns entries →
      Working D ι args db (s.after s.db.trie (lines.map .progress) []) →
      Q ⟨root,walkedOf entries,NodeDigest.ofStream D.hashOne D.packing ns⟩
        (s.after s.db.trie (lines.map .progress) [])) :
    Process.wp (BuildDigest D ι (entriesOf db.hashed)) Q (Ending D ι args db) s := by
  constructor
  · intro a s' hs'
    cases hs' with
    | @done _ calls σ ns ρ now root hσ hfin hns hρ hidle hb =>
      rw [h.hashed] at hb
      rw [walked_eq hρ,NodeDigest.snapshot_eq hσ hfin hns]
      exact hq root ns _ _ hb (h.after h.trie (truthful_progress (.inr hf) hρ _))
  · intro stop s' hs'
    cases hs' with
    | stopped hρ hs => exact h.halts h.trie (truthful_progress (.inr hf) hρ _) hs

end DatadirBench
end TrieRebuild
