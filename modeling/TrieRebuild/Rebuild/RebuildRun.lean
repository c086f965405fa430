import TrieRebuild.Rebuild.RethRebuild
import TrieRebuild.Rebuild.Upserts
import TrieRebuild.Trie.ReferenceReth

/-! A rebuild in chunks leaves what a rebuild in one go would: the walks are resumed one from the
other, the totals add up, and the tables hold the nodes of all chunks and nothing else. -/
namespace TrieRebuild
open Foundation
variable {ε W I K S : Type} [DecidableEq K] [DecidableEq S]

/-- Each walk starts from the state the one before it returned. -/
def Resumed : Option I → List (Walk I) → Prop
  | _,[] => True
  | state,w::walks => w.1 = state ∧ Resumed w.2.next walks

section Walker
variable (walk : Option I → TrieTables K S → Except W (StateRootProgress I))
variable (A : TrieTableAdapter K S)

/-- Walks that all yield progress, each over the tables with the updates of those before. -/
inductive Walks : Option I → TrieTables K S → List (Walk I) → Option I → TrieTables K S → Prop
  | nil (state : Option I) (T : TrieTables K S) : Walks state T [] state T
  | cons {state : Option I} {T T' T'' : TrieTables K S} {next : I} {entries : ℕ}
      {updates : TrieUpdates} {walks : List (Walk I)} {state' : Option I}
      (h : walk state T = .ok (.progress next entries updates))
      (hT : T'.row = (updates.patch A).apply T.row) (hr : Walks (some next) T' walks state' T'') :
      Walks state T ((state,.progress next entries updates)::walks) state' T''

/-- The walker, started over empty tables, completes with these walks. -/
structure Completes (walks : List (Walk I)) (root : B256) : Prop where
  run : ∃ earlier state T entries updates, Walks walk A none {} earlier state T ∧
    walk state T = .ok (.complete root entries updates) ∧
    walks = earlier ++ [(state,.complete root entries updates)]

end Walker

/-- The updates of some walks hand out a set of nodes: each node's key in one of them only, no
path empty, nothing removed, and no trie flagged deleted that an earlier walk has nodes for. -/
structure SplitsNodes (us : List TrieUpdates) (U : Multiset Node) : Prop where
  nodes : (us.map TrieUpdates.nodes).sum = U
  keys : (U.map Node.key).Nodup
  storable : ∀ n ∈ U, n.path.isEmpty = false
  noRemovals : ∀ u ∈ us, u.NoRemovals
  notDeleted : ∀ earlier u later, us = earlier ++ u::later →
    ∀ a t, u.storageTries.lookup a = some t → t.isDeleted = true →
      ∀ v ∈ earlier, ∀ n ∈ v.nodes, n.hashedAddress ≠ some a

/-- The totals of a rebuild, after some more walks. -/
def Rebuilt.after (totals : Rebuilt) (walks : List (Walk I)) : Rebuilt :=
  { totals with
    entries := totals.entries+(walks.map fun w => w.2.entries).sum
    written := totals.written+
      (walks.map fun w => (w.2.updates.nodes.filter fun n => n.storable).card).sum
    chunks := totals.chunks+walks.length }

section Rows
variable (A : TrieTableAdapter K S)

/-- The nodes of some updates, in some order. -/
noncomputable def nodesOf (us : List TrieUpdates) : List Node := us.flatMap fun u => u.nodes.toList

theorem coe_nodesOf (us : List TrieUpdates) :
    (nodesOf us : Multiset Node) = (us.map TrieUpdates.nodes).sum := by
  induction us with
  | nil => rfl
  | cons u us ih =>
    rw [nodesOf,List.flatMap_cons,← Multiset.coe_add,Multiset.coe_toList,← nodesOf,ih,List.map_cons,
      List.sum_cons]

theorem TrieTableAdapter.rowsOf_append (bs cs : List (NodeKey × BranchNodeCompact)) :
    A.rowsOf (latest (bs ++ cs)) = fun k => (A.rowsOf (latest cs) k).or (A.rowsOf (latest bs) k) := by
  funext k
  unfold TrieTableAdapter.rowsOf
  split_ifs with h
  · exact latest_append bs cs _
  · rfl

/-- Updates written one after the other to empty tables store their nodes. -/
theorem rows_of_updates {us : List TrieUpdates} (hr : ∀ u ∈ us, u.NoRemovals)
    (hd : ∀ earlier u later, us = earlier ++ u::later →
      ∀ a t, u.storageTries.lookup a = some t → t.isDeleted = true →
        ∀ v ∈ earlier, ∀ n ∈ v.nodes, n.hashedAddress ≠ some a) :
    us.foldl (fun f u => (u.patch A).apply f) (fun _ => none) =
      A.rowsOf (latest ((nodesOf us).map Node.binding)) := by
  induction us using List.reverseRecOn with
  | nil =>
    funext k
    simp [TrieTableAdapter.rowsOf,nodesOf]
  | append_singleton us u ih =>
    have hus := ih (fun v hv => hr v (List.mem_append_left _ hv))
      (fun earlier v later he => hd earlier v (later ++ [u]) (by rw [he]; simp))
    have hu := hr u (List.mem_append_right _ List.mem_cons_self)
    have hget : u.get = latest (u.nodes.toList.map Node.binding) :=
      TrieUpdates.get_eq_latest (Multiset.coe_toList _).symm
    have hnodes : nodesOf (us ++ [u]) = nodesOf us ++ u.nodes.toList := by simp [nodesOf]
    rw [List.foldl_append,List.foldl_cons,List.foldl_nil,hus,hnodes,List.map_append,
      A.rowsOf_append,← hget]
    apply hu.patch_apply A
    intro a t s ht hdel
    -- no earlier node belongs to a trie that is flagged now
    have hnone : latest ((nodesOf us).map Node.binding) (A.nodeKey (.storage a s)) = none := by
      rw [latest_eq_none_iff,Node.map_fst_binding]
      intro hm
      obtain ⟨n,hn,hk⟩ := List.mem_map.mp hm
      obtain ⟨v,hv,hnv⟩ := List.mem_flatMap.mp hn
      exact hd us u [] rfl a t ht hdel v hv n (Multiset.mem_toList.mp hnv) (congrArg Prod.fst hk)
    unfold TrieTableAdapter.rowsOf
    rw [hnone,ite_self]

/-- Tables with the rows of a split node set hold that set. -/
theorem SplitsNodes.nodes_eq {us : List TrieUpdates} {U : Multiset Node} (h : SplitsNodes us U)
    {T : TrieTables K S} (hT : T.row = A.rowsOf (latest ((nodesOf us).map Node.binding))) :
    T.nodes A = U := by
  have hU : (nodesOf us : Multiset Node) = U := (coe_nodesOf us).trans h.nodes
  have hkeys : ((nodesOf us).map Node.key).Nodup := by
    have hk := h.keys
    rwa [← hU,Multiset.map_coe,Multiset.coe_nodup] at hk
  have hall : (nodesOf us).filter Node.storable = nodesOf us := by
    apply List.filter_eq_self.mpr
    intro n hn
    rw [Node.storable,h.storable n (hU ▸ Multiset.mem_coe.mpr hn)]
    rfl
  rw [A.rowsOf_latest,hall] at hT
  rw [TrieTables.nodes_eq_of_row A hkeys hT,hU]

theorem SplitsNodes.card_eq {us : List TrieUpdates} {U : Multiset Node} (h : SplitsNodes us U) :
    (us.map fun u => (u.nodes.filter fun n => n.storable).card).sum = U.card := by
  have hstorable : ∀ u ∈ us, (u.nodes.filter fun n => n.storable).card = u.nodes.card := by
    intro u hu
    congr 1
    apply Multiset.filter_eq_self.mpr
    intro n hn
    have hm : n ∈ U := by
      rw [← h.nodes,← coe_nodesOf]
      exact Multiset.mem_coe.mpr (List.mem_flatMap.mpr ⟨u,hu,Multiset.mem_toList.mpr hn⟩)
    rw [Node.storable,h.storable n hm]
    rfl
  have hlen : U.card = (nodesOf us).length := by
    rw [← h.nodes,← coe_nodesOf,Multiset.coe_card]
  rw [List.map_congr_left hstorable,hlen,nodesOf,List.length_flatMap]
  simp only [Multiset.length_toList]

end Rows

section Steps
variable (R : Reth K S) (A : TrieTableAdapter K S)
variable (walk : Option I → TrieTables K S → Except W (StateRootProgress I)) (other : W → ε)

/-- One chunk without faults: the walk's updates are written and its totals added. -/
theorem rebuildChunk_yields {s : RebuildLoop I K S} {progress : StateRootProgress I}
    (h : walk s.state s.tables = .ok progress) (hr : progress.updates.NoRemovals)
    {T : TrieTables K S} (hT : T.row = (progress.updates.patch A).apply s.tables.row) :
    ∃ c, (rebuildChunk R A walk other s.state : Tx ε (TrieTables K S) _).Yields s.tables
      (progress,(progress.updates.nodes.filter fun n => n.storable).card) c T := by
  obtain ⟨c,T',hy,hr'⟩ := writeTrieUpdatesWith_yields (ε := ε) R A progress.updates s.tables
  rw [hr.entries] at hy
  obtain rfl := TrieTables.ext_row (hr'.trans hT.symm)
  let inspected : TrieTables K S → Except ε (StateRootProgress I) :=
    fun T => (walk s.state T).mapError other
  have hwalk : inspected s.tables = .ok progress := by
    change (walk s.state s.tables).mapError other = _
    rw [h]
    rfl
  have hwrite := hy.bind (k := fun written => (pure (progress,written) : Tx ε (TrieTables K S) _))
    (Tx.yields_pure T' _)
  exact ⟨_,((Tx.yields_inspect hwalk).bind (k := fun progress : StateRootProgress I => do
    let written ← writeTrieUpdatesWith R A progress.updates
    pure (progress,written)) hwrite).transact⟩

/-- The body on a walk that succeeds and a transaction without faults. -/
theorem rebuildBody_eq {faults : ℕ → ℕ → Option ε} {s : RebuildLoop I K S}
    (hf : faults s.totals.chunks = Tx.noFault) {progress : StateRootProgress I}
    (h : walk s.state s.tables = .ok progress) (hr : progress.updates.NoRemovals)
    {T : TrieTables K S} (hT : T.row = (progress.updates.patch A).apply s.tables.row) :
    rebuildBody R A walk other faults s =
      (s.advance progress (progress.updates.nodes.filter fun n => n.storable).card T).leave
        progress.root := by
  obtain ⟨c,hy⟩ := rebuildChunk_yields R A walk other h hr hT
  rw [rebuildBody,hf,hy.run_noFault]

/-- Walks that yield progress keep the loop going. -/
theorem Walks.continues {state state' : Option I} {T T' : TrieTables K S} {walks : List (Walk I)}
    (h : Walks walk A state T walks state' T') (hr : ∀ w ∈ walks, w.2.updates.NoRemovals)
    (faults : ℕ → ℕ → Option ε) (s : RebuildLoop I K S) (hs : s.state = state) (hT : s.tables = T)
    (hf : ∀ i < walks.length, faults (s.totals.chunks+i) = Tx.noFault) :
    ∃ s', Continues (rebuildBody R A walk other faults) walks.length s s' ∧ s'.state = state' ∧
      s'.tables = T' ∧ s'.walks = s.walks ++ walks ∧ s'.totals = s.totals.after walks := by
  induction h generalizing s with
  | nil state T => exact ⟨s,.refl s,hs,hT,by simp,by simp [Rebuilt.after]⟩
  | @cons state T₀ T₁ T₂ next entries updates walks state' hw hT₁ _ ih =>
    subst hs
    subst hT
    have hu := hr _ List.mem_cons_self
    have hbody := rebuildBody_eq R A walk other (hf 0 (Nat.succ_pos _)) hw hu hT₁
    obtain ⟨s',hc,hst,htab,hwalks,htot⟩ := ih (fun w hm => hr w (List.mem_cons_of_mem _ hm))
      (s.advance (.progress next entries updates)
        (updates.nodes.filter fun n => n.storable).card T₁) rfl rfl (by
          intro i hi
          have hfi := hf (i+1) (Nat.succ_lt_succ hi)
          rwa [← Nat.add_assoc,Nat.add_right_comm] at hfi)
    refine ⟨s',.step hbody hc,hst,htab,?_,?_⟩
    · rw [hwalks,RebuildLoop.advance,List.append_assoc]
      rfl
    · rw [htot]
      simp only [Rebuilt.after,RebuildLoop.advance,StateRootProgress.entries,
        StateRootProgress.updates,List.map_cons,List.sum_cons,List.length_cons,Rebuilt.mk.injEq,
        true_and]
      exact ⟨Nat.add_assoc _ _ _,Nat.add_assoc _ _ _,by omega⟩

/-- Progress leaves the tables patched by the updates in turn. -/
theorem Walks.rows {state state' : Option I} {T T' : TrieTables K S} {walks : List (Walk I)}
    (h : Walks walk A state T walks state' T') :
    T'.row = (walks.map fun w => w.2.updates).foldl (fun f u => (u.patch A).apply f) T.row := by
  induction h with
  | nil => rfl
  | cons _ hT _ ih =>
    rw [ih,hT]
    rfl

/-- Each walk was resumed from the state before, and the last state is the one left. -/
theorem Walks.resumed {state state' : Option I} {T T' : TrieTables K S} {walks : List (Walk I)}
    (h : Walks walk A state T walks state' T') (last : List (Walk I)) (hl : Resumed state' last) :
    Resumed state (walks ++ last) := by
  induction h with
  | nil => exact hl
  | cons _ _ _ ih => exact ⟨rfl,ih hl⟩

omit [DecidableEq K] [DecidableEq S] in
theorem clearTrieTables_yields (T : TrieTables K S) :
    (clearTrieTables : Tx ε (TrieTables K S) Unit).Yields T () 4 {} := by
  have haccounts := Tx.yields_modify (ε := ε) (fun T : TrieTables K S => { T with accounts := ∅ }) T
  have hstorages := Tx.yields_modify (ε := ε) (fun T : TrieTables K S => { T with storages := ∅ })
    { T with accounts := ∅ }
  exact (haccounts.bind (k := fun _ => Tx.modify fun T => { T with storages := ∅ })
    hstorages).transact

omit [DecidableEq K] [DecidableEq S] in
theorem readSettings_yields (T : TrieTables K S) :
    (readSettings : Tx ε (TrieTables K S) Unit).Yields T () 2 T :=
  (Tx.yields_touch T).bind (k := fun _ => Tx.touch) (Tx.yields_touch T)

end Steps

section Rebuild
variable (R : Reth K S)

/-- Writing a split node set in one go, to cleared tables, leaves the same rows. -/
theorem SplitsNodes.clear_write (settings : Option (List UInt8)) {us : List TrieUpdates}
    {U : Multiset Node} (h : SplitsNodes us U) {T' : TrieTables K S}
    (hT : T'.row = (R.adapter (R.usesPackedTrieKeys settings)).rowsOf
      (latest ((nodesOf us).map Node.binding)))
    (T : TrieTables K S) {v : TrieUpdates} (hv : v.NoRemovals) (hnodes : v.nodes = U) :
    (writeTrieUpdates R settings v : Tx ε (TrieTables K S) ℕ).run Tx.noFault
      ((clearTrieTables : Tx ε (TrieTables K S) Unit).run Tx.noFault T).2 = (.ok U.card,T') := by
  obtain ⟨c,Tv,hyv,hrv⟩ := writeTrieUpdates_yields (ε := ε) R settings v {}
  have hns : v.nodes = nodesOf us := hnodes.trans (h.nodes.symm.trans (coe_nodesOf us).symm)
  have hall : (v.nodes.filter fun n => n.storable) = U := by
    rw [hnodes]
    apply Multiset.filter_eq_self.mpr
    intro n hn
    rw [Node.storable,h.storable n hn]
    rfl
  have hsame : Tv = T' := by
    apply TrieTables.ext_row
    rw [hrv,hT,TrieTables.row_empty,hv.patch_apply _ _ (fun _ _ _ _ _ => rfl),
      TrieUpdates.get_eq_latest hns]
    funext k
    rw [Option.or_none]
  rw [hv.entries,hall] at hyv
  rw [(clearTrieTables_yields T).run_noFault,hyv.run_noFault,hsame]

variable (rootWithProgress : TrieTableAdapter K S → Option UInt64 → Option I → TrieTables K S →
  Except W (StateRootProgress I))
variable (other : W → ε) (settings : Option (List UInt8)) (threshold : Option UInt64)

/-- If the first two transactions succeed, what remains is the loop over empty tables. -/
theorem rethRebuild_eq_loop {faults : ℕ → ℕ → Option ε} (h₀ : faults 0 = Tx.noFault)
    (h₁ : faults 1 = Tx.noFault) (fuel : ℕ) (T : TrieTables K S) :
    rethRebuild R rootWithProgress other settings threshold faults fuel T =
      loop (rebuildBody R (R.adapter (R.usesPackedTrieKeys settings))
        (rootWithProgress (R.adapter (R.usesPackedTrieKeys settings)) threshold) other
          fun i => faults (i+2)) fuel { tables := {} } := by
  rw [rethRebuild,h₀,h₁,(readSettings_yields T).run_noFault]
  dsimp only
  rw [(clearTrieTables_yields T).run_noFault]

/-- If the walker completes, the rebuild returns its root with the totals over all chunks, has
resumed each walk from the state returned before, and leaves the nodes of all chunks and nothing
else in the tables, as clearing them and writing the nodes once would. -/
theorem rethRebuild_completes {walks : List (Walk I)} {root : B256} {U : Multiset Node}
    (hrun : Completes (rootWithProgress (R.adapter (R.usesPackedTrieKeys settings)) threshold)
      (R.adapter (R.usesPackedTrieKeys settings)) walks root)
    (hU : SplitsNodes (walks.map fun w => w.2.updates) U) (T : TrieTables K S) (fuel : ℕ)
    (hfuel : walks.length ≤ fuel) :
    ∃ s, rethRebuild R rootWithProgress other settings threshold (fun _ => Tx.noFault) fuel T =
        some (.ok ⟨root,(walks.map fun w => w.2.entries).sum,U.card,walks.length⟩,s) ∧
      s.walks = walks ∧ Resumed none s.walks ∧
      s.tables.nodes (R.adapter (R.usesPackedTrieKeys settings)) = U ∧
      ∀ v : TrieUpdates, v.NoRemovals → v.nodes = U →
        (writeTrieUpdates R settings v : Tx ε (TrieTables K S) ℕ).run Tx.noFault
          ((clearTrieTables : Tx ε (TrieTables K S) Unit).run Tx.noFault T).2 =
            (.ok U.card,s.tables) := by
  obtain ⟨earlier,state,T',entries,updates,hwalks,hlast,rfl⟩ := hrun.run
  let A := R.adapter (R.usesPackedTrieKeys settings)
  have hno : ∀ w : Walk I, w ∈ earlier ++ [(state,.complete root entries updates)] →
      w.2.updates.NoRemovals :=
    fun w hw => hU.noRemovals _ (List.mem_map_of_mem hw)
  obtain ⟨s,hc,hstate,htables,hrec,htot⟩ := Walks.continues R A _ other hwalks
    (fun w hw => hno w (List.mem_append_left _ hw)) (fun _ => Tx.noFault)
    { tables := {} } rfl rfl fun _ _ => rfl
  subst hstate
  subst htables
  let last : StateRootProgress I := .complete root entries updates
  let us := (earlier ++ [(s.state,last)]).map fun w => w.2.updates
  obtain ⟨c,T'',hy,hrow⟩ := writeTrieUpdatesWith_yields (ε := ε) R A updates s.tables
  let s' := s.advance last (updates.nodes.filter fun n => n.storable).card T''
  have hbody : rebuildBody R A (rootWithProgress A threshold) other (fun _ => Tx.noFault) s =
      .inr (.ok ⟨root,s'.totals.entries,s'.totals.written,s'.totals.chunks⟩,s') :=
    rebuildBody_eq R A _ other rfl hlast
      (hno (s.state,last) (List.mem_append_right _ List.mem_cons_self)) hrow
  have hrows : T''.row = A.rowsOf (latest ((nodesOf us).map Node.binding)) :=
    calc
      T''.row = us.foldl (fun f u => (u.patch A).apply f) fun _ => none := by
        have hus : us = (earlier.map fun w => w.2.updates) ++ [updates] := List.map_append
        rw [hrow,Walks.rows A (rootWithProgress A threshold) hwalks,TrieTables.row_empty,hus,
          List.foldl_append]
        rfl
      _ = _ := rows_of_updates A hU.noRemovals hU.notDeleted
  have hrec' : s'.walks = earlier ++ [(s.state,last)] := by
    change s.walks ++ [(s.state,last)] = _
    rw [hrec,List.nil_append]
  have htot' : (⟨root,s'.totals.entries,s'.totals.written,s'.totals.chunks⟩ : Rebuilt) =
      ⟨root,((earlier ++ [(s.state,last)]).map fun w => w.2.entries).sum,U.card,
        (earlier ++ [(s.state,last)]).length⟩ := by
    rw [← hU.card_eq,List.map_map,List.map_append,List.map_append,List.sum_append,List.sum_append,
      List.length_append]
    simp only [s',RebuildLoop.advance,htot,Rebuilt.after,Nat.zero_add]
    rfl
  refine ⟨s',?_,hrec',?_,hU.nodes_eq A hrows,fun v => hU.clear_write R settings hrows T⟩
  · rw [rethRebuild_eq_loop R rootWithProgress other settings threshold rfl rfl,
      ← htot']
    exact hc.loop_eq_some hbody (by simpa using hfuel)
  · rw [hrec']
    exact Walks.resumed A _ hwalks [_] ⟨rfl,trivial⟩

/-- Any division of a stream of distinct nodes into chunks splits its nodes. -/
theorem splitsNodes_collect (nss : List (List Node)) (hn : (nss.flatten.map Node.key).Nodup)
    (hs : ∀ n ∈ nss.flatten, n.path.isEmpty = false) :
    SplitsNodes (nss.map TrieUpdates.collect) (nss.flatten : Multiset Node) where
  nodes := by
    induction nss with
    | nil => rfl
    | cons ns nss ih =>
      rw [List.flatten_cons,List.map_append] at hn
      rw [List.map_cons,List.map_cons,List.sum_cons,List.flatten_cons,← Multiset.coe_add,
        TrieUpdates.nodes_collect hn.of_append_left,
        ih hn.of_append_right fun n hm => hs n (List.mem_append_right _ hm)]
  keys := by
    rw [Multiset.map_coe]
    exact Multiset.coe_nodup.mpr hn
  storable := hs
  noRemovals u hu := by
    obtain ⟨ns,-,rfl⟩ := List.mem_map.mp hu
    exact (TrieUpdates.plain_collect ns).noRemovals
  notDeleted earlier u later he a t ht hd := by
    have hu : u ∈ nss.map TrieUpdates.collect := he ▸ List.mem_append_right _ List.mem_cons_self
    obtain ⟨ns,-,rfl⟩ := List.mem_map.mp hu
    rw [((TrieUpdates.plain_collect ns).storage a t ht).1] at hd
    exact Bool.noConfusion hd

namespace ReferenceReth

/-- A walker that hands out the storage trie of one account in two parts. -/
def sampleWalker (a b : Fin 16) (_ : TrieTableAdapter Nibbles Nibbles) (_ : Option UInt64) :
    Option Unit → TrieTables Nibbles Nibbles → Except Unit (StateRootProgress Unit)
  | none,_ => .ok (.progress () 3 (.collect [sampleNode (some B256.zero) a]))
  | some (),_ => .ok (.complete (B256.repeatByte 7) 2
      (.collect [sampleNode (some B256.zero) b,sampleNode none a]))

end ReferenceReth

open ReferenceReth in
/-- Two chunks over tables that hold a stale node. -/
theorem rethRebuild_completes_sample :
    let ns := [sampleNode (some B256.zero) 1,sampleNode (some B256.zero) 2,sampleNode none 1]
    ∃ s : RebuildLoop Unit Nibbles Nibbles,
      rethRebuild (ε := Unit) reth (sampleWalker 1 2) id none none (fun _ => Tx.noFault) 2
          (({} : TrieTables Nibbles Nibbles).store pathAdapter (sampleNode none 9)) =
        some (.ok ⟨B256.repeatByte 7,5,3,2⟩,s) ∧
      s.tables.nodes pathAdapter = (ns : Multiset Node) := by
  intro ns
  let first : Walk Unit := (none,.progress () 3 (.collect [sampleNode (some B256.zero) 1]))
  let last : Walk Unit := (some (),.complete (B256.repeatByte 7) 2
    (.collect [sampleNode (some B256.zero) 2,sampleNode none 1]))
  have hrun : Completes (sampleWalker 1 2 pathAdapter none) pathAdapter [first,last]
      (B256.repeatByte 7) := by
    refine ⟨[first],some (),({} : TrieTables Nibbles Nibbles).overlaid pathAdapter
      [sampleNode (some B256.zero) 1],2,_,.cons rfl ?_ (.nil _ _),rfl,rfl⟩
    exact (patch_collect pathAdapter [sampleNode (some B256.zero) 1] {}).symm
  have hU := splitsNodes_collect [[sampleNode (some B256.zero) 1],
    [sampleNode (some B256.zero) 2,sampleNode none 1]] (by decide) (by decide)
  obtain ⟨s,hs,-,-,hnodes,-⟩ := rethRebuild_completes (ε := Unit) reth (sampleWalker 1 2) id none none
    hrun hU (({} : TrieTables Nibbles Nibbles).store pathAdapter (sampleNode none 9)) 2 le_rfl
  exact ⟨s,hs,hnodes⟩

/-- If the transaction of some chunk fails, the rebuild stops with its error, and the tables hold
the nodes of the chunks before. -/
theorem rethRebuild_stops {walks : List (Walk I)} {state : Option I} {T' : TrieTables K S}
    {U : Multiset Node}
    (hwalks : Walks (rootWithProgress (R.adapter (R.usesPackedTrieKeys settings)) threshold)
      (R.adapter (R.usesPackedTrieKeys settings)) none {} walks state T')
    (hU : SplitsNodes (walks.map fun w => w.2.updates) U) {faults : ℕ → ℕ → Option ε}
    (hf : ∀ i < walks.length+2, faults i = Tx.noFault) {e : ε}
    (he : ((rebuildChunk R (R.adapter (R.usesPackedTrieKeys settings))
      (rootWithProgress (R.adapter (R.usesPackedTrieKeys settings)) threshold) other state :
        Tx ε (TrieTables K S) _).run (faults (walks.length+2)) T').1 = .error e)
    (T : TrieTables K S) (fuel : ℕ) (hfuel : walks.length < fuel) :
    ∃ s, rethRebuild R rootWithProgress other settings threshold faults fuel T =
        some (.error e,s) ∧ s.walks = walks ∧ s.tables = T' ∧
      s.tables.nodes (R.adapter (R.usesPackedTrieKeys settings)) = U := by
  let A := R.adapter (R.usesPackedTrieKeys settings)
  obtain ⟨s,hc,hstate,htables,hrec,htot⟩ := Walks.continues R A _ other hwalks
    (fun w hw => hU.noRemovals _ (List.mem_map_of_mem hw)) (fun i => faults (i+2))
    { tables := {} } rfl rfl (fun i hi => hf _ (by simpa using hi))
  subst hstate
  subst htables
  have hchunks : s.totals.chunks = walks.length := by
    rw [htot]
    exact Nat.zero_add _
  have hsame := Tx.run_snd_of_error he
  have hbody : rebuildBody R A (rootWithProgress A threshold) other (fun i => faults (i+2)) s =
      .inr (.error e,{ s with state := none }) := by
    have hrun : (rebuildChunk R A (rootWithProgress A threshold) other s.state :
        Tx ε (TrieTables K S) _).run (faults (s.totals.chunks+2)) s.tables =
          (.error e,s.tables) := by
      rw [hchunks]
      exact Prod.ext he hsame
    rw [rebuildBody,hrun]
  refine ⟨{ s with state := none },?_,hrec,rfl,hU.nodes_eq A ?_⟩
  · rw [rethRebuild_eq_loop R rootWithProgress other settings threshold (hf 0 (by omega))
      (hf 1 (by omega)),hc.loop_eq_some hbody hfuel]
  · rw [← rows_of_updates A hU.noRemovals hU.notDeleted,← TrieTables.row_empty]
    exact Walks.rows A (rootWithProgress A threshold) hwalks

end Rebuild
end TrieRebuild
