import TrieRebuild.Bench.Builds

/-! Whatever happens to a `datadir_bench` process: only the trie tables change, its lines are true,
its exit status says what went wrong, and if nothing did the tables are complete. -/
namespace TrieRebuild
open Foundation

namespace DatadirBench
variable {ε W I Account K S : Type} [DecidableEq K] [DecidableEq S]
variable {D : Dependencies ε W I Account K S} {ι : Type} [DecidableEq ι]
variable {args : Args} {db : Datadir Account K S} {s : World Account K S}

omit [DecidableEq K] [DecidableEq S] in
theorem Expected.after (h : Expected args s) {lines : List Output}
    (hl : ∀ line ∈ lines, ∀ root, line.root? = some root →
      ∀ expected, args.expectedRoot = some expected → root = expected)
    (T : TrieTables K S) (complaints : List Complaint) :
    Expected args (s.after T lines complaints) := by
  intro line hm
  rcases List.mem_append.mp hm with hm | hm
  · exact h line hm
  · exact hl line hm

omit [DecidableEq K] [DecidableEq S] in
theorem Expected.print (h : Expected args s) {line : Output} (hl : line.root? = none) :
    Expected args (s.print line) := by
  rw [World.print_eq]
  refine h.after (fun l hm => ?_) _ _
  rw [List.mem_singleton.mp hm,hl]
  intro root hr
  cases hr

theorem root?_matchedLines (line l : Output) (h : l ∈ matchedLines args line) :
    l.root? = none := by
  rw [matchedLines] at h
  split at h
  · cases h
  · rw [List.mem_singleton.mp h]
    rfl

/-- The lines from a root shown to the checks of the tables it was written to. -/
theorem wp_checked {Q : Unit → World Account K S → Prop} (h : Working D ι args db s)
    (he : Expected args s) {line : Output} {root : B256} (hl : Truthful D ι args db s.stdout line)
    (hr : line.root? = some root) {label : String} (hlabel : label = line.label) {ns : List Node}
    (hns : s.db.trie.nodes (adapter D db) = ns)
    (hq : ∀ s', Working D ι args db s' → Expected args s' → s'.db.trie = s.db.trie →
      Shown D args db s' line root ns → Q () s') :
    Process.wp (do
      println line
      checkRoot root args.expectedRoot label
      let tx ← readTx
      checkWrittenTables D tx root) Q (Ending D ι args db) s := by
  subst hlabel
  refine Process.wp_bind (wp_println h hl fun h₁ => ?_)
  refine Process.wp_bind (wp_checkRoot h₁ (World.suffix_print _ _) hr fun hroot h₂ => ?_)
  refine Process.wp_bind (wp_readTx h₂ ?_)
  have hshown : line::matchedLines args line <:+
      ((s.print line).after s.db.trie (matchedLines args line) []).stdout :=
    ⟨s.stdout,by simp [World.print,World.after]⟩
  refine wp_checkWrittenTables h₂ hshown hr hns fun hserial h₃ => ?_
  let t := s.after s.db.trie
    (line::(matchedLines args line ++ [.tables (tablesOf D s.db.trie ns),.walk root])) []
  have hworld : ((s.print line).after s.db.trie (matchedLines args line) []).after s.db.trie
      [.tables (tablesOf D s.db.trie ns),.walk root] [] = t := by
    rw [World.print_eq,World.after_after,World.after_after]
    simp [t]
  have ht : Working D ι args db t := by
    rw [← hworld]
    exact h₃
  suffices hqt : Q () t by
    rw [← hworld] at hqt
    exact hqt
  refine hq t ht (he.after (fun l hm => ?_) _ _) rfl ⟨hns,hserial,List.suffix_append _ _⟩
  rcases List.mem_cons.mp hm with rfl | hm
  · rw [hr]
    rintro _ ⟨⟩
    exact hroot
  · have hnone : l.root? = none := by
      rcases List.mem_append.mp hm with hm | hm
      · exact root?_matchedLines line l hm
      · simp only [List.mem_cons,List.not_mem_nil,or_false] at hm
        rcases hm with rfl | rfl <;> rfl
    rw [hnone]
    intro root' hr'
    cases hr'

theorem root?_map_progress (lines : List Line) : ∀ line ∈ lines.map Output.progress,
    ∀ root, line.root? = some root →
      ∀ expected, args.expectedRoot = some expected → root = expected := by
  intro line hm
  obtain ⟨l,-,rfl⟩ := List.mem_map.mp hm
  intro root hr
  cases hr

theorem root?_map_chunk (totals : List Rebuilt) : ∀ line ∈ totals.map Output.chunk,
    ∀ root, line.root? = some root →
      ∀ expected, args.expectedRoot = some expected → root = expected := by
  intro line hm
  obtain ⟨l,-,rfl⟩ := List.mem_map.mp hm
  intro root hr
  cases hr

theorem wp_writeRun [Fintype ι] (h : Working D ι args db s) (he : Expected args s)
    (hf : args.write = true) {run : Usize} (hrun : run ∈ runs args.repeats) :
    Process.wp (writeRun D ι args (entriesOf db.hashed) run) (fun _ s' =>
      Working D ι args db s' ∧ Expected args s' ∧ WrittenBy D args db run s')
      (Ending D ι args db) s := by
  have hw : writes args = true := by simp [writes,hf]
  refine Process.wp_bind (wp_clear h hw fun h₁ => ?_)
  refine Process.wp_bind (wp_buildWritten h₁ hf rfl fun root ns entries T lines hb hT h₂ => ?_)
  subst hT
  have he₂ : Expected args ((s.after {} [] []).after
      (({} : TrieTables K S).overlaid (adapter D db) ns) (lines.map .progress) []) :=
    (he.after (by simp) _ _).after (root?_map_progress lines) _ _
  exact wp_checked h₂ he₂ (.wrote hf hrun hb) rfl rfl (nodes_overlaid (D.handsOver hb) _)
    fun s' h' he' htrie hshown => ⟨h',he',root,ns,entries,hb,htrie,hshown⟩

theorem wp_digestRun [Fintype ι] (h : Working D ι args db s) (he : Expected args s)
    (hf : Digests args) {run : Usize} (hrun : run ∈ runs args.repeats) :
    Process.wp (digestRun D ι args (entriesOf db.hashed) run) (fun _ s' =>
      Working D ι args db s' ∧ Expected args s') (Ending D ι args db) s := by
  refine Process.wp_bind (wp_buildDigest h hf fun root ns entries lines hb h₁ => ?_)
  let line : Output := .digested run root (walkedOf entries)
    (NodeDigest.ofStream D.hashOne D.packing ns)
  refine Process.wp_bind (wp_println h₁ (.digested hf hrun hb) fun h₂ => ?_)
  refine wp_checkRoot h₂ (World.suffix_print _ line) rfl fun hroot h₃ => ⟨h₃,?_⟩
  rw [World.print_eq]
  refine ((he.after (root?_map_progress lines) _ _).after (fun l hm => ?_) _ _).after
    (fun l hm => ?_) _ _
  · rw [List.mem_singleton.mp hm]
    rintro _ ⟨⟩
    exact hroot
  · rw [root?_matchedLines _ l hm]
    intro root' hr'
    cases hr'

theorem wp_clearing (h : Working D ι args db s) (he : Expected args s)
    (hc : args.clearTrieTables = true) :
    Process.wp (clearing ε) (fun _ s' =>
      Working D ι args db s' ∧ Expected args s' ∧ s'.db.trie = {}) (Ending D ι args db) s := by
  have hw : writes args = true := by simp [writes,hc]
  refine Process.wp_bind (wp_clear h hw fun h₁ => ?_)
  exact wp_println h₁ (.cleared hc) fun h₂ => ⟨h₂,(he.after (by simp) _ _).print rfl,rfl⟩

theorem wp_rebuilding (h : Working D ι args db s) (he : Expected args s)
    (hr : args.rethRebuild = true) :
    Process.wp (rebuilding D args) (fun _ s' =>
      Working D ι args db s' ∧ Expected args s' ∧ RebuiltBy D args db s')
      (Ending D ι args db) s := by
  refine Process.wp_bind (wp_readTx h ?_)
  refine Process.wp_bind (wp_printTip h h.finishBlock fun h₁ => ?_)
  refine Process.wp_bind (wp_rethRebuild h₁ hr fun ws root T hcompletes hT h₂ => ?_)
  have he₂ : Expected args ((s.print (.tip db.finishBlock)).after T
      ((loggedAfter ws).map .chunk) []) :=
    (he.print rfl).after (root?_map_chunk _) _ _
  exact wp_checked h₂ he₂ (.rebuilt hr hcompletes) rfl rfl (Multiset.coe_toList _).symm
    fun s' h' he' htrie hshown => ⟨h',he',ws,root,_,hcompletes,by rw [htrie]; exact hT,hshown⟩

theorem wp_writing [Fintype ι] (h : Working D ι args db s) (he : Expected args s)
    (hw : args.write = true) :
    Process.wp (writing D ι args (D.poolThreads args.threads)) (fun _ s' =>
      Working D ι args db s' ∧ Expected args s' ∧
        (args.repeats.toNat ≠ 0 → WrittenBy D args db args.repeats s'))
      (Ending D ι args db) s := by
  refine Process.wp_bind (wp_readTx h ?_)
  refine Process.wp_bind (wp_printTip h h.finishBlock fun h₁ => ?_)
  refine Process.wp_bind (wp_println h₁ .threads fun h₂ => ?_)
  refine Process.wp_bind (wp_readTx h₂ ?_)
  refine Process.wp_bind (wp_hashedEntries h₂ h₂.hashed ?_)
  refine Process.wp_bind (wp_println h₂ (.hashedEntries (.inl hw)) fun h₃ => ?_)
  -- the last run done has left its nodes
  refine Process.wp_mono (Process.wp_each (fun done t => Working D ι args db t ∧
    Expected args t ∧ ∀ run ∈ done.getLast?, WrittenBy D args db run t) ?_ ⟨h₃,?_,?_⟩) ?_
  · rintro done run rest hruns t ⟨ht,het,-⟩
    have hrun : run ∈ runs args.repeats := by rw [hruns]; simp
    refine Process.wp_mono (wp_writeRun ht het hw hrun) fun _ t' ht' => ⟨ht'.1,ht'.2.1,?_⟩
    rw [List.getLast?_concat]
    rintro _ ⟨⟩
    exact ht'.2.2
  · exact ((he.print rfl).print rfl).print rfl
  · simp
  · rintro _ t ⟨ht,het,hlast⟩
    refine ⟨ht,het,fun hn => hlast _ ?_⟩
    obtain ⟨n,hn⟩ := Nat.exists_eq_succ_of_ne_zero hn
    have hrepeats : args.repeats = .ofNat (n+1) := by
      rw [← Nat.succ_eq_add_one,← hn,UInt64.ofNat_toNat]
    rw [runs,hn,List.range_succ,List.map_append,List.map_singleton,List.getLast?_concat,hrepeats]
    rfl

theorem wp_readWrite [Fintype ι] (h : Working D ι args db s) (he : Expected args s) :
    Process.wp (readWrite D ι args (D.poolThreads args.threads)) (fun _ s' =>
      Working D ι args db s' ∧ Settled D args db s') (Ending D ι args db) s := by
  refine Process.wp_bind (wp_expect h fun _ s' hs' => ?_)
  rw [hs']
  refine Process.wp_bind (Process.wp_mono (Process.wp_onlyIf
    (R := fun t => Working D ι args db t ∧ Expected args t ∧
      (args.clearTrieTables = true → t.db.trie = {}))
    (fun hc => Process.wp_mono (wp_clearing h he hc) fun _ t ht => ⟨ht.1,ht.2.1,fun _ => ht.2.2⟩)
    fun hc => ⟨h,he,fun hc' => Bool.noConfusion (hc.symm.trans hc')⟩) ?_)
  rintro _ t ⟨ht,het,hcleared⟩
  refine Process.wp_bind (Process.wp_mono (Process.wp_onlyIf
    (R := fun u => Working D ι args db u ∧ Expected args u ∧
      (args.clearTrieTables = true → args.rethRebuild = false → u.db.trie = {}) ∧
        (args.rethRebuild = true → RebuiltBy D args db u))
    (fun hr => Process.wp_mono (wp_rebuilding ht het hr) fun _ u hu =>
      ⟨hu.1,hu.2.1,fun _ hr' => Bool.noConfusion (hr.symm.trans hr'),fun _ => hu.2.2⟩)
    fun hr => ⟨ht,het,fun hc _ => hcleared hc,
      fun hr' => Bool.noConfusion (hr.symm.trans hr')⟩) ?_)
  rintro _ u ⟨hu,heu,hcleared,hrebuilt⟩
  refine Process.wp_onlyIf (fun hwrite => ?_) fun hwrite => ⟨hu,hu.stderr,heu,?_,?_,?_⟩
  · refine Process.wp_mono (wp_writing hu heu hwrite) fun _ v hv => ⟨hv.1,hv.1.stderr,hv.2.1,?_,?_,?_⟩
    · intro _ _ hn
      rw [hwrite] at hn
      cases hn
    · intro _ hn
      rw [hwrite] at hn
      cases hn
    · exact fun _ => hv.2.2
  · exact fun hc hr _ => hcleared hc hr
  · exact fun hr _ => hrebuilt hr
  · intro hn
    rw [hwrite] at hn
    cases hn

theorem wp_readOnly [Fintype ι] (h : Working D ι args db s) (he : Expected args s)
    (hw : writes args = false) :
    Process.wp (readOnly D ι args (D.poolThreads args.threads)) (fun _ s' =>
      Working D ι args db s' ∧ Settled D args db s') (Ending D ι args db) s := by
  have hsettled : ∀ t, Working D ι args db t → Expected args t →
      Working D ι args db t ∧ Settled D args db t := by
    intro t ht het
    have hflags : (args.clearTrieTables = false ∧ args.rethRebuild = false) ∧
        args.write = false := by
      simpa [writes] using hw
    obtain ⟨⟨hc,hr⟩,hwrite⟩ := hflags
    exact ⟨ht,ht.stderr,het,by simp [hc],by simp [hr],by simp [hwrite]⟩
  refine Process.wp_bind (wp_expect h fun _ s' hs' => ?_)
  rw [hs']
  refine Process.wp_bind (wp_readTx h ?_)
  refine Process.wp_bind (wp_printTip h h.finishBlock fun h₁ => ?_)
  refine Process.wp_bind (wp_println h₁ .threads fun h₂ => ?_)
  have he₂ : Expected args ((s.print (.tip db.finishBlock)).print
      (.threads (D.poolThreads args.threads))) := (he.print rfl).print rfl
  split_ifs with hd hs
  · exact wp_printTrieTablesDigest h₂ rfl (Multiset.coe_toList _).symm fun h₃ =>
      hsettled _ h₃ (he₂.print rfl)
  · refine Process.wp_bind (wp_rethSerialRoot h₂ rfl fun root hroot => ?_)
    have htrie : s.db.trie = db.trie := h.trie.resolve_right fun hn => by
      rw [hw] at hn
      cases hn.1
    refine Process.wp_bind (wp_println h₂ (.serial hw (Bool.eq_false_of_not_eq_true hd) hs
      (htrie ▸ hroot)) fun h₃ => ?_)
    refine wp_checkRoot h₃ (World.suffix_print _ (.serial root)) rfl fun hroot h₄ => hsettled _ h₄ ?_
    rw [World.print_eq _ (.serial root)]
    refine (he₂.after (fun l hm => ?_) _ _).after (fun l hm => ?_) _ _
    · rw [List.mem_singleton.mp hm]
      rintro _ ⟨⟩
      exact hroot
    · rw [root?_matchedLines _ l hm]
      intro root' hr'
      cases hr'
  · have hf : Digests args :=
      ⟨hw,Bool.eq_false_of_not_eq_true hd,Bool.eq_false_of_not_eq_true hs⟩
    refine Process.wp_bind (wp_hashedEntries h₂ h₂.hashed ?_)
    refine Process.wp_bind (wp_println h₂ (.hashedEntries (.inr hf)) fun h₃ => ?_)
    refine Process.wp_mono (Process.wp_each (fun _ t => Working D ι args db t ∧ Expected args t)
      ?_ ⟨h₃,he₂.print rfl⟩) fun _ t ht => hsettled t ht.1 ht.2
    rintro done run rest hruns t ⟨ht,het⟩
    have hrun : run ∈ runs args.repeats := by rw [hruns]; simp
    exact wp_digestRun ht het hf hrun

end DatadirBench
end TrieRebuild
