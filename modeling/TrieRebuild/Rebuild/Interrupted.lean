import TrieRebuild.Rebuild.RebuildRun

/-! `reth_rebuild` on a database whose calls may fail at any point: it does what the clean rebuild
does, or stops at a chunk boundary of it. -/
namespace TrieRebuild
open Foundation
variable {ε W I K S : Type} [DecidableEq K] [DecidableEq S]

/-- The totals before the first chunk. -/
def Rebuilt.start : Rebuilt := ⟨B256.zero,0,0,0⟩

theorem Rebuilt.after_append (totals : Rebuilt) (ws vs : List (Walk I)) :
    totals.after (ws ++ vs) = (totals.after ws).after vs := by
  simp only [Rebuilt.after,List.map_append,List.sum_append,List.length_append,Nat.add_assoc]

/-- One log line for every hundred chunks, with the totals up to there. -/
def loggedAfter (ws : List (Walk I)) : List Rebuilt :=
  (List.range (ws.length/100)).map fun k => Rebuilt.start.after (ws.take (100*(k+1)))

@[simp] theorem loggedAfter_nil : loggedAfter ([] : List (Walk I)) = [] := by
  simp [loggedAfter]

theorem loggedAfter_concat (ws : List (Walk I)) (w : Walk I) :
    loggedAfter (ws ++ [w]) = if (ws.length+1) % 100 = 0 then
      loggedAfter ws ++ [Rebuilt.start.after (ws ++ [w])] else loggedAfter ws := by
  have hearlier : ∀ k < ws.length/100, (ws ++ [w]).take (100*(k+1)) = ws.take (100*(k+1)) := by
    intro k hk
    exact List.take_append_of_le_length (by omega)
  have hmap : (List.range (ws.length/100)).map
      (fun k => Rebuilt.start.after ((ws ++ [w]).take (100*(k+1)))) = loggedAfter ws := by
    apply List.map_congr_left
    intro k hk
    rw [hearlier k (List.mem_range.mp hk)]
  rw [loggedAfter,List.length_append,List.length_singleton]
  split_ifs with h
  · have hdiv : (ws.length+1)/100 = ws.length/100+1 := by omega
    rw [hdiv,List.range_succ,List.map_append,hmap,List.map_singleton,
      List.take_of_length_le (by rw [List.length_append,List.length_singleton]; omega)]
  · have hdiv : (ws.length+1)/100 = ws.length/100 := by omega
    rw [hdiv,hmap]

section Walker
variable {walk : Option I → TrieTables K S → Except W (StateRootProgress I)}
variable {A : TrieTableAdapter K S} {state s₁ s₂ : Option I} {T T₁ T₂ : TrieTables K S}
variable {ws vs : List (Walk I)} {root : B256}

/-- One more walk that yields progress. -/
theorem Walks.concat (h : Walks walk A state T ws s₁ T₁) {next : I} {entries : ℕ}
    {updates : TrieUpdates} (hw : walk s₁ T₁ = .ok (.progress next entries updates))
    (hT : T₂.row = (updates.patch A).apply T₁.row) :
    Walks walk A state T (ws ++ [(s₁,.progress next entries updates)]) (some next) T₂ := by
  induction h with
  | nil state T => exact .cons hw hT (.nil _ _)
  | cons hw' hT' _ ih => exact .cons hw' hT' (ih hw hT)

/-- Of two runs of the walker one goes on where the other stops. -/
theorem Walks.comparable (h : Walks walk A state T ws s₁ T₁) (h' : Walks walk A state T vs s₂ T₂) :
    (∃ more, Walks walk A s₁ T₁ more s₂ T₂ ∧ vs = ws ++ more) ∨
      ∃ more, Walks walk A s₂ T₂ more s₁ T₁ ∧ ws = vs ++ more := by
  induction h generalizing vs with
  | nil state T => exact .inl ⟨vs,h',rfl⟩
  | @cons state T T' T'' next entries updates ws state' hw hT hr ih =>
    cases h' with
    | nil => exact .inr ⟨_,.cons hw hT hr,rfl⟩
    | @cons _ _ U _ next' entries' updates' vs' _ hw' hU hr' =>
      rw [hw] at hw'
      cases hw'
      obtain rfl : T' = U := TrieTables.ext_row (hT.trans hU.symm)
      rcases ih hr' with ⟨more,hm,rfl⟩ | ⟨more,hm,rfl⟩
      · exact .inl ⟨more,hm,rfl⟩
      · exact .inr ⟨more,hm,rfl⟩

/-- Where some walks of a clean run end, its next one succeeds; one that completes is its last. -/
theorem Completes.next {walks : List (Walk I)} (h : Completes walk A walks root)
    (hw : Walks walk A none {} ws s₁ T₁) :
    ∃ progress rest, walk s₁ T₁ = .ok progress ∧ walks = ws ++ (s₁,progress)::rest ∧
      ∀ root' entries updates, progress = .complete root' entries updates →
        root' = root ∧ rest = [] := by
  obtain ⟨earlier,state,T,entries,updates,hearlier,hlast,rfl⟩ := h.run
  have hfirst : ∃ more, Walks walk A s₁ T₁ more state T ∧ earlier = ws ++ more := by
    rcases hw.comparable hearlier with hm | ⟨more,hm,rfl⟩
    · exact hm
    · -- nothing comes after the last walk
      cases hm with
      | nil => exact ⟨[],.nil _ _,by simp⟩
      | cons hwalk _ _ =>
        rw [hlast] at hwalk
        cases hwalk
  obtain ⟨more,hm,rfl⟩ := hfirst
  cases hm with
  | nil =>
    refine ⟨_,[],hlast,by rw [List.append_nil],fun root' entries' updates' he => ?_⟩
    cases he
    exact ⟨rfl,rfl⟩
  | @cons _ _ _ _ next entries' updates' more' _ hwalk _ _ =>
    exact ⟨_,_,hwalk,by rw [List.append_assoc,List.cons_append],fun _ _ _ he => by cases he⟩

theorem Completes.length_lt {walks : List (Walk I)} (h : Completes walk A walks root)
    (hw : Walks walk A none {} ws s₁ T₁) : ws.length < walks.length := by
  obtain ⟨progress,rest,-,rfl,-⟩ := h.next hw
  simp

/-- A walker completes in one way only. -/
theorem Completes.unique {walks : List (Walk I)} {root' : B256} (h : Completes walk A walks root)
    (h' : Completes walk A ws root') : walks = ws ∧ root' = root := by
  obtain ⟨earlier,state,T,entries,updates,hearlier,hlast,hws⟩ := h'.run
  obtain ⟨progress,rest,hok,hwalks,hcomplete⟩ := h.next hearlier
  rw [hlast] at hok
  cases hok
  obtain ⟨hroot,rfl⟩ := hcomplete _ _ _ rfl
  exact ⟨hwalks.trans hws.symm,hroot⟩

end Walker

/-- The first updates of a split hand out their own share of its nodes. -/
theorem SplitsNodes.take {us : List TrieUpdates} {U : Multiset Node} (h : SplitsNodes us U)
    (k : ℕ) : SplitsNodes (us.take k) ((us.take k).map TrieUpdates.nodes).sum := by
  have hle : ((us.take k).map TrieUpdates.nodes).sum ≤ U := by
    have hsplit : ((us.take k).map TrieUpdates.nodes).sum+
        ((us.drop k).map TrieUpdates.nodes).sum = U := by
      rw [← List.sum_append,← List.map_append,List.take_append_drop,h.nodes]
    exact hsplit ▸ Multiset.le_add_right _ _
  exact {
    nodes := rfl
    keys := Multiset.nodup_of_le (Multiset.map_le_map hle) h.keys
    storable := fun n hn => h.storable n (Multiset.mem_of_le hle hn)
    noRemovals := fun u hu => h.noRemovals u (List.mem_of_mem_take hu)
    notDeleted := fun earlier u later he =>
      have hus : us = earlier ++ u::(later ++ us.drop k) :=
        calc
          us = us.take k ++ us.drop k := (List.take_append_drop k us).symm
          _ = _ := by rw [he,List.append_assoc,List.cons_append]
      h.notDeleted earlier u (later ++ us.drop k) hus }

section Chunk
variable (R : Reth K S) (A : TrieTableAdapter K S)
variable (walk : Option I → TrieTables K S → Except W (StateRootProgress I)) (other : W → ε)

/-- A chunk under any faults: the walk's updates are written, or nothing is and the error is that
of a failing call or of the walk. -/
theorem rebuildChunk_cases (faults : ℕ → Option ε) (state : Option I) (T : TrieTables K S) :
    (∃ progress T', walk state T = .ok progress ∧
      T'.row = (progress.updates.patch A).apply T.row ∧
      (rebuildChunk R A walk other state).run faults T =
        (.ok (progress,progress.updates.accountEntries A T+progress.updates.storageEntries),T')) ∨
    ∃ e, ((∃ i, faults i = some e) ∨ ∃ w, walk state T = .error w ∧ e = other w) ∧
      (rebuildChunk R A walk other state).run faults T = (.error e,T) := by
  let inspected : TrieTables K S → Except ε (StateRootProgress I) :=
    fun T => (walk state T).mapError other
  cases hw : walk state T with
  | error w =>
    have hx : (do
        let progress ← Tx.inspect inspected
        let written ← writeTrieUpdatesWith R A progress.updates
        pure (progress,written) : Tx ε (TrieTables K S) _) faults (1,T) = .error (other w) := by
      apply Tx.bind_of_error
      change ((walk state T).mapError other).map _ = _
      rw [hw]
      rfl
    obtain ⟨e,he,hrun⟩ := Tx.run_transact_error hx
    exact .inr ⟨e,he.imp (fun hf => ⟨0,hf⟩) fun heq => ⟨w,rfl,heq⟩,hrun⟩
  | ok progress =>
    obtain ⟨c,T',hy,hrow⟩ := writeTrieUpdatesWith_yields (ε := ε) R A progress.updates T
    have hinspected : inspected T = .ok progress := by
      change (walk state T).mapError other = _
      rw [hw]
      rfl
    have hwrite := hy.bind (k := fun written => (pure (progress,written) : Tx ε (TrieTables K S) _))
      (Tx.yields_pure T' _)
    have hchunk := ((Tx.yields_inspect hinspected).bind (k := fun progress : StateRootProgress I => do
      let written ← writeTrieUpdatesWith R A progress.updates
      pure (progress,written)) hwrite).transact
    by_cases hf : ∃ i < 0+(c+0)+2, faults i ≠ none
    · obtain ⟨e,⟨i,-,hi⟩,hrun⟩ := hchunk.run_error hf
      exact .inr ⟨e,.inl ⟨i,hi⟩,hrun⟩
    · push Not at hf
      exact .inl ⟨progress,T',rfl,hrow,hchunk.run_ok hf⟩

/-- The loop at its head: the tables hold what the walks so far found, and the totals and the log
are theirs. -/
structure RebuildLoop.Holds (s : RebuildLoop I K S) : Prop where
  walks : Walks walk A none {} s.walks s.state s.tables
  totals : s.totals = Rebuilt.start.after s.walks
  logged : s.logged = loggedAfter s.walks

/-- The loop when it is left: after an error it is as before the failed chunk, otherwise the last
walk has completed. -/
inductive RebuildLoop.Left (faults : ℕ → ℕ → Option ε) :
    Except ε Rebuilt × RebuildLoop I K S → Prop
  | failed {s : RebuildLoop I K S} {state : Option I} {e : ε}
      (walks : Walks walk A none {} s.walks state s.tables)
      (logged : s.logged = loggedAfter s.walks)
      (h : (∃ i, faults s.walks.length i = some e) ∨
        ∃ w, walk state s.tables = .error w ∧ e = other w) : Left faults (.error e,s)
  | completed {s : RebuildLoop I K S} {root : B256} (walks : Completes walk A s.walks root)
      (tables : s.tables.row =
        (s.walks.map fun w => w.2.updates).foldl (fun f u => (u.patch A).apply f) fun _ => none)
      (logged : s.logged = loggedAfter s.walks) :
      Left faults (.ok { Rebuilt.start.after s.walks with root },s)

variable {R A walk other}

/-- What a committed chunk adds to totals and log. -/
theorem RebuildLoop.Holds.advance {s : RebuildLoop I K S} (h : s.Holds A walk)
    {progress : StateRootProgress I} (hr : progress.updates.NoRemovals) (T' : TrieTables K S) :
    let s' := s.advance progress
      (progress.updates.accountEntries A s.tables+progress.updates.storageEntries) T'
    s'.totals = Rebuilt.start.after s'.walks ∧ s'.logged = loggedAfter s'.walks := by
  have htotals : { s.totals with
      entries := s.totals.entries+progress.entries
      written := s.totals.written+
        (progress.updates.accountEntries A s.tables+progress.updates.storageEntries)
      chunks := s.totals.chunks+1 } = Rebuilt.start.after (s.walks ++ [(s.state,progress)]) := by
    rw [hr.entries,Rebuilt.after_append,← h.totals]
    simp [Rebuilt.after]
  refine ⟨htotals,?_⟩
  have hchunks : s.totals.chunks = s.walks.length := by
    rw [h.totals]
    exact Nat.zero_add _
  simp only [RebuildLoop.advance]
  rw [loggedAfter_concat,← htotals,← h.logged,hchunks]

/-- The body keeps the loop's invariant and adds a walk, or leaves the loop. -/
theorem rebuildBody_holds {s : RebuildLoop I K S}
    (hno : ∀ progress, walk s.state s.tables = .ok progress → progress.updates.NoRemovals)
    (faults : ℕ → ℕ → Option ε) (h : s.Holds A walk) :
    (∀ t, rebuildBody R A walk other faults s = .inl t →
      t.Holds A walk ∧ t.walks.length = s.walks.length+1) ∧
      ∀ r, rebuildBody R A walk other faults s = .inr r → RebuildLoop.Left A walk other faults r := by
  have hchunks : s.totals.chunks = s.walks.length := by
    rw [h.totals]
    exact Nat.zero_add _
  rcases rebuildChunk_cases R A walk other (faults s.totals.chunks) s.state s.tables with
    ⟨progress,T',hw,hrow,hrun⟩ | ⟨e,he,hrun⟩
  · obtain ⟨htotals,hlogged⟩ := h.advance (hno _ hw) T'
    rw [rebuildBody,hrun]
    cases progress with
    | progress next entries updates =>
      refine ⟨fun t ht => ?_,fun r hr => by cases hr⟩
      cases ht
      exact ⟨⟨h.walks.concat hw hrow,htotals,hlogged⟩,List.length_append⟩
    | complete root entries updates =>
      refine ⟨fun t ht => (by cases ht),fun r hr => ?_⟩
      let s' := s.advance (.complete root entries updates)
        (updates.accountEntries A s.tables+updates.storageEntries) T'
      have hresult : r = (.ok { s'.totals with root },s') := (Sum.inr.inj hr).symm
      have htotals' : s'.totals = Rebuilt.start.after s'.walks := htotals
      rw [hresult,htotals']
      refine .completed ⟨s.walks,s.state,s.tables,entries,updates,h.walks,hw,rfl⟩ ?_ hlogged
      change T'.row = ((s.walks ++ [(s.state,_)]).map fun w : Walk I => w.2.updates).foldl _ _
      rw [hrow,Walks.rows A walk h.walks,TrieTables.row_empty,List.map_append,List.foldl_append]
      rfl
  · rw [rebuildBody,hrun]
    refine ⟨fun t ht => (by cases ht),fun r hr => ?_⟩
    cases hr
    exact .failed h.walks h.logged (he.imp_left fun hf => hchunks ▸ hf)

end Chunk

section Rebuild
variable {R : Reth K S}
variable {rootWithProgress : TrieTableAdapter K S → Option UInt64 → Option I → TrieTables K S →
  Except W (StateRootProgress I)}
variable {other : W → ε} {settings : Option (List UInt8)} {threshold : Option UInt64}

variable (R rootWithProgress other settings threshold) in
/-- `reth_rebuild` under any faults: an error before the tables are cleared, or the loop over cleared
tables. -/
theorem rethRebuild_cases (faults : ℕ → ℕ → Option ε) (fuel : ℕ) (T : TrieTables K S) :
    (∃ e, (∃ k i, faults k i = some e) ∧
      rethRebuild R rootWithProgress other settings threshold faults fuel T =
        some (.error e,{ tables := T })) ∨
    rethRebuild R rootWithProgress other settings threshold faults fuel T =
      loop (rebuildBody R (R.adapter (R.usesPackedTrieKeys settings))
        (rootWithProgress (R.adapter (R.usesPackedTrieKeys settings)) threshold) other
          fun i => faults (i+2)) fuel { tables := {} } := by
  unfold rethRebuild
  by_cases hread : ∃ i < 2, faults 0 i ≠ none
  · obtain ⟨e,⟨i,-,he⟩,hrun⟩ := (readSettings_yields T).run_error hread
    rw [hrun]
    exact .inl ⟨e,⟨0,i,he⟩,rfl⟩
  · push Not at hread
    rw [(readSettings_yields T).run_ok hread]
    dsimp only
    by_cases hclear : ∃ i < 4, faults 1 i ≠ none
    · obtain ⟨e,⟨i,-,he⟩,hrun⟩ := (clearTrieTables_yields T).run_error hclear
      rw [hrun]
      exact .inl ⟨e,⟨1,i,he⟩,rfl⟩
    · push Not at hclear
      rw [(clearTrieTables_yields T).run_ok hclear]
      exact .inr rfl

theorem RebuildLoop.holds_start {A : TrieTableAdapter K S}
    {walk : Option I → TrieTables K S → Except W (StateRootProgress I)} :
    RebuildLoop.Holds A walk { tables := {} } :=
  ⟨.nil _ _,rfl,loggedAfter_nil.symm⟩

/-- How `reth_rebuild` returns: with an error before the tables are cleared, or as its loop is
left. -/
theorem rethRebuild_left (hno : ∀ s : RebuildLoop I K S,
      s.Holds (R.adapter (R.usesPackedTrieKeys settings))
        (rootWithProgress (R.adapter (R.usesPackedTrieKeys settings)) threshold) →
      ∀ progress, rootWithProgress (R.adapter (R.usesPackedTrieKeys settings)) threshold s.state
        s.tables = .ok progress → progress.updates.NoRemovals)
    {faults : ℕ → ℕ → Option ε} {fuel : ℕ} {T : TrieTables K S}
    {r : Except ε Rebuilt × RebuildLoop I K S}
    (h : rethRebuild R rootWithProgress other settings threshold faults fuel T = some r) :
    (∃ e, (∃ k i, faults k i = some e) ∧ r = (.error e,{ tables := T })) ∨
      RebuildLoop.Left (R.adapter (R.usesPackedTrieKeys settings))
        (rootWithProgress (R.adapter (R.usesPackedTrieKeys settings)) threshold) other
          (fun i => faults (i+2)) r := by
  rcases rethRebuild_cases R rootWithProgress other settings threshold faults fuel T with
    ⟨e,hf,he⟩ | hloop
  · rw [he] at h
    cases h
    exact .inl ⟨e,hf,rfl⟩
  · rw [hloop] at h
    refine .inr (loop_rule (RebuildLoop.Holds (R.adapter (R.usesPackedTrieKeys settings))
      (rootWithProgress (R.adapter (R.usesPackedTrieKeys settings)) threshold)) ?_ ?_
        RebuildLoop.holds_start h)
    · exact fun s t hs ht => ((rebuildBody_holds (hno s hs) _ hs).1 t ht).1
    · exact fun s r hs => (rebuildBody_holds (hno s hs) _ hs).2 r

section Clean
variable {walks : List (Walk I)} {root : B256} {U : Multiset Node}

/-- What the walker returns at the loop's head is the clean rebuild's next walk. -/
theorem Completes.noRemovals {A : TrieTableAdapter K S}
    {walk : Option I → TrieTables K S → Except W (StateRootProgress I)}
    (hrun : Completes walk A walks root) (hU : SplitsNodes (walks.map fun w => w.2.updates) U)
    (s : RebuildLoop I K S) (hs : s.Holds A walk) (progress : StateRootProgress I)
    (hw : walk s.state s.tables = .ok progress) : progress.updates.NoRemovals := by
  obtain ⟨next,rest,hok,hwalks,-⟩ := hrun.next hs.walks
  rw [hw] at hok
  cases hok
  apply hU.noRemovals
  rw [hwalks]
  exact List.mem_map_of_mem (f := fun w : Walk I => w.2.updates)
    (List.mem_append_right _ List.mem_cons_self)

/-- Under any faults `reth_rebuild` returns after at most as many walks as the clean one. -/
theorem rethRebuild_returns
    (hrun : Completes (rootWithProgress (R.adapter (R.usesPackedTrieKeys settings)) threshold)
      (R.adapter (R.usesPackedTrieKeys settings)) walks root)
    (hU : SplitsNodes (walks.map fun w => w.2.updates) U) (faults : ℕ → ℕ → Option ε)
    (T : TrieTables K S) {fuel : ℕ} (hfuel : walks.length ≤ fuel) :
    ∃ r, rethRebuild R rootWithProgress other settings threshold faults fuel T = some r := by
  rcases rethRebuild_cases R rootWithProgress other settings threshold faults fuel T with
    ⟨e,-,he⟩ | hloop
  · exact ⟨_,he⟩
  · rw [hloop]
    have hpos : 0 < walks.length := hrun.length_lt (.nil _ _)
    refine loop_variant (RebuildLoop.Holds (R.adapter (R.usesPackedTrieKeys settings))
      (rootWithProgress (R.adapter (R.usesPackedTrieKeys settings)) threshold))
      (fun s => walks.length-1-s.walks.length) (fun s t hs ht => ?_) RebuildLoop.holds_start ?_
    · obtain ⟨ht,hlen⟩ := (rebuildBody_holds (hrun.noRemovals hU s hs) _ hs).1 t ht
      have := hrun.length_lt ht.walks
      exact ⟨ht,by omega⟩
    · omega

/-- However the database's calls fail, a rebuild returns, and does not deviate from the clean one.
It returns the clean result with all nodes in the tables, or the error of a failing call; then the
tables are as they were, or hold the nodes of the chunks committed so far, which are the clean
rebuild's first ones. A line was logged for every hundred of them. -/
theorem rethRebuild_whole_or_part
    (hrun : Completes (rootWithProgress (R.adapter (R.usesPackedTrieKeys settings)) threshold)
      (R.adapter (R.usesPackedTrieKeys settings)) walks root)
    (hU : SplitsNodes (walks.map fun w => w.2.updates) U)
    (faults : ℕ → ℕ → Option ε) (T : TrieTables K S) {fuel : ℕ} (hfuel : walks.length ≤ fuel) :
    ∃ result s, rethRebuild R rootWithProgress other settings threshold faults fuel T =
      some (result,s) ∧
    (s.walks <+: walks ∧ s.logged = loggedAfter s.walks) ∧
    ((result = .ok ⟨root,(walks.map fun w => w.2.entries).sum,U.card,walks.length⟩ ∧
        s.walks = walks ∧ s.tables.nodes (R.adapter (R.usesPackedTrieKeys settings)) = U) ∨
      ∃ e k i, result = .error e ∧ faults k i = some e ∧ s.walks.length < walks.length ∧
        (s.tables = T ∧ s.walks = [] ∨
          s.tables.nodes (R.adapter (R.usesPackedTrieKeys settings)) =
            (s.walks.map fun w => w.2.updates.nodes).sum)) := by
  let A := R.adapter (R.usesPackedTrieKeys settings)
  obtain ⟨⟨result,s⟩,h⟩ : ∃ r, rethRebuild R rootWithProgress other settings threshold faults fuel
      T = some r := rethRebuild_returns hrun hU faults T hfuel
  refine ⟨result,s,h,?_⟩
  have hpos : 0 < walks.length := hrun.length_lt (.nil _ _)
  rcases rethRebuild_left (hrun.noRemovals hU) h with ⟨e,⟨k,i,hf⟩,hr⟩ | hleft
  · cases hr
    exact ⟨⟨List.nil_prefix,loggedAfter_nil.symm⟩,.inr ⟨e,k,i,rfl,hf,hpos,.inl ⟨rfl,rfl⟩⟩⟩
  · cases hleft with
    | @failed _ state e hwalks hlogged hcause =>
      obtain ⟨progress,rest,hok,hnext,-⟩ := hrun.next hwalks
      have hlt := hrun.length_lt hwalks
      have htake : walks.take s.walks.length = s.walks := by
        rw [hnext,List.take_left]
      refine ⟨⟨hnext ▸ List.prefix_append _ _,hlogged⟩,.inr ?_⟩
      rcases hcause with ⟨i,hf⟩ | ⟨w,hw,-⟩
      · refine ⟨e,s.walks.length+2,i,rfl,hf,hlt,.inr ?_⟩
        have hsplit := hU.take s.walks.length
        rw [← List.map_take,htake] at hsplit
        rw [hsplit.nodes_eq A ?_,List.map_map]
        · rfl
        · rw [Walks.rows A _ hwalks,TrieTables.row_empty]
          exact rows_of_updates A hsplit.noRemovals hsplit.notDeleted
      · -- the walk succeeds where the clean rebuild's does
        rw [hok] at hw
        cases hw
    | @completed _ root' hcompletes htables hlogged =>
      obtain ⟨rfl,rfl⟩ := hrun.unique hcompletes
      refine ⟨⟨List.prefix_rfl,hlogged⟩,.inl ⟨?_,rfl,hU.nodes_eq A ?_⟩⟩
      · rw [← hU.card_eq,List.map_map]
        simp only [Rebuilt.after,Rebuilt.start,Nat.zero_add]
        rfl
      · rw [htables]
        exact rows_of_updates A hU.noRemovals hU.notDeleted

open ReferenceReth in
/-- The transaction of the second of two chunks does not open: the stale node is gone, and the
first chunk's is there. -/
theorem rethRebuild_whole_or_part_sample :
    ∃ s : RebuildLoop Unit Nibbles Nibbles,
      rethRebuild reth (sampleWalker 1 2) id none none
          (fun k => if k = 3 then fun _ => some () else Tx.noFault) 2
          (({} : TrieTables Nibbles Nibbles).store pathAdapter (sampleNode none 9)) =
        some (.error (),s) ∧
      s.walks.length < 2 ∧ s.tables.nodes pathAdapter = {sampleNode (some B256.zero) 1} := by
  let first : Walk Unit := (none,.progress () 3 (.collect [sampleNode (some B256.zero) 1]))
  let last : Walk Unit := (some (),.complete (B256.repeatByte 7) 2
    (.collect [sampleNode (some B256.zero) 2,sampleNode none 1]))
  let T := ({} : TrieTables Nibbles Nibbles).store pathAdapter (sampleNode none 9)
  let T' := ({} : TrieTables Nibbles Nibbles).overlaid pathAdapter [sampleNode (some B256.zero) 1]
  have hwalks : Walks (sampleWalker 1 2 pathAdapter none) pathAdapter none {} [first] (some ())
      T' := by
    refine .cons rfl ?_ (.nil _ _)
    exact (patch_collect pathAdapter [sampleNode (some B256.zero) 1] {}).symm
  have hrun : Completes (sampleWalker 1 2 pathAdapter none) pathAdapter [first,last]
      (B256.repeatByte 7) := ⟨[first],some (),T',2,_,hwalks,rfl,rfl⟩
  have hU : SplitsNodes ([first,last].map fun w => w.2.updates) _ :=
    splitsNodes_collect [[sampleNode (some B256.zero) 1],
      [sampleNode (some B256.zero) 2,sampleNode none 1]] (by decide) (by decide)
  let faults : ℕ → ℕ → Option Unit := fun k => if k = 3 then fun _ => some () else Tx.noFault
  have hf : ∀ i < 3, faults i = Tx.noFault := by
    intro i hi
    exact if_neg (by omega)
  obtain ⟨s',hs',hfirst,-,-⟩ := rethRebuild_stops (e := ()) reth (sampleWalker 1 2) id none none
    hwalks (hU.take 1) hf rfl T 2 (by decide)
  obtain ⟨result,s,hs,-,hcases⟩ : ∃ result s, rethRebuild reth (sampleWalker 1 2) id none none
      faults 2 T = some (result,s) ∧ _ := rethRebuild_whole_or_part hrun hU faults T le_rfl
  rw [hs'] at hs
  cases hs
  refine ⟨s',hs',?_⟩
  rcases hcases with ⟨hok,-⟩ | ⟨e,k,i,-,-,hlt,⟨-,hnone⟩ | hnodes⟩
  · cases hok
  · rw [hfirst] at hnone
    cases hnone
  · refine ⟨hlt,hnodes.trans ?_⟩
    rw [hfirst,List.map_singleton,List.sum_singleton]
    exact TrieUpdates.nodes_collect (by decide)

end Clean
end Rebuild
end TrieRebuild
