import TrieRebuild.Sink.WriterLoop
import TrieRebuild.Trie.ReferenceReth

/-! Chunking does not show in the tables: the node received last under each key stays, whatever
the chunk size and however often the key was received. -/
namespace TrieRebuild
open Foundation

/-- The node received last under a key. -/
def lastReceived (rs : List Node) (k : NodeKey) : Option BranchNodeCompact :=
  (rs.filter fun n => n.key = k).getLast?.map Node.node

theorem lastReceived_eq_latest (rs : List Node) (k : NodeKey) :
    lastReceived rs k = latest (rs.map Node.binding) k := by
  rw [latest_eq_getLast?,List.filter_map,List.getLast?_map,Option.map_map]
  rfl

section Rows
variable {K S : Type} [DecidableEq K] [DecidableEq S] (A : TrieTableAdapter K S)

theorem TrieTables.row_overlaid_rowKey (T : TrieTables K S) (rs : List Node) {k : NodeKey}
    (hk : k.2.isEmpty = false) :
    (T.overlaid A rs).row (A.rowKey k) = (lastReceived rs k).or (T.row (A.rowKey k)) := by
  rw [row_overlaid,overlay,← A.rowsOf_latest,A.rowsOf_rowKey,lastReceived_eq_latest]
  simp [hk]

theorem TrieTables.row_overlaid_frame (T : TrieTables K S) (rs : List Node) {row : RowKey K S}
    (h : ∀ n ∈ rs, n.storable → A.rowKey n.key ≠ row) : (T.overlaid A rs).row row = T.row row := by
  have hnone : latest ((rs.filter Node.storable).map A.rowBinding) row = none := by
    rw [latest_eq_none_iff]
    intro hm
    simp only [List.map_map,List.mem_map,List.mem_filter,Function.comp_apply] at hm
    obtain ⟨n,⟨hn,hs⟩,he⟩ := hm
    exact h n hn hs he
  rw [row_overlaid,overlay,hnone,Option.none_or]

end Rows

/-- With distinct keys no entry is written twice. -/
theorem sum_chunkEntries {c : ℕ} {chunks : List (List Node)} {tail rs : List Node}
    (h : Chunked c chunks tail rs) (hn : (rs.map Node.key).Nodup) :
    (chunks.map chunkEntries).sum+chunkEntries tail = (rs.filter Node.storable).length := by
  have hsub : ∀ chunk ∈ chunks, chunk.Sublist rs := by
    intro chunk hm
    rw [← h.flatten]
    exact (List.sublist_flatten_of_mem hm).trans (List.sublist_append_left _ _)
  have htail : tail.Sublist rs := by
    rw [← h.flatten]
    exact List.sublist_append_right _ _
  have hmap : chunks.map chunkEntries = chunks.map fun chunk => (chunk.filter Node.storable).length :=
    List.map_congr_left fun chunk hm =>
      chunkEntries_of_nodup (hn.sublist ((hsub chunk hm).map _))
  rw [hmap,chunkEntries_of_nodup (hn.sublist (htail.map _)),← h.flatten,List.filter_append,
    List.length_append,List.filter_flatten,List.length_flatten,List.map_map]
  rfl

section Release
variable {ε K S : Type} [DecidableEq K] [DecidableEq S]

/-- Without debug assertions and without faults, one and the same tables come out of every chunk
size: each key of non-empty path holds the node received last under it, every other row is as it
was. The stream is committed in `n / c` chunks, rounded up. -/
theorem writeChunks_last_wins (R : Reth K S) (packed : Bool) (T : TrieTables K S) (rs : List Node) :
    ∃ T' : TrieTables K S,
      (∀ k : NodeKey, k.2.isEmpty = false → T'.row ((R.adapter packed).rowKey k) =
        (lastReceived rs k).or (T.row ((R.adapter packed).rowKey k))) ∧
      (∀ row, (∀ n ∈ rs, n.storable → (R.adapter packed).rowKey n.key ≠ row) →
        T'.row row = T.row row) ∧
      ∀ c, 1 ≤ c → ∃ nodes,
        writeChunks R packed c false (fun _ => (Tx.noFault : ℕ → Option ε)) T rs =
          (.ok ⟨nodes,rs.length ⌈/⌉ c⟩,T') ∧
        ((rs.map Node.key).Nodup → nodes = (rs.filter Node.storable).length) := by
  refine ⟨T.overlaid (R.adapter packed) rs,
    fun k hk => TrieTables.row_overlaid_rowKey _ T rs hk,
    fun row h => TrieTables.row_overlaid_frame _ T rs h,fun c hc => ?_⟩
  obtain ⟨chunks,tail,h,hrun⟩ := writeChunks_ok R packed c false
    (fun _ => (Tx.noFault : ℕ → Option ε)) T hc rs
    (fun _ _ _ _ => rfl) (fun _ hd => nomatch hd)
  exact ⟨_,hrun,sum_chunkEntries h⟩

/-- A key received twice, in two chunks. -/
theorem writeChunks_last_wins_sample :
    let n := ReferenceReth.sampleNode (some B256.zero) 1
    let m : Node := { n with node := ⟨5,0,0,[],none⟩ }
    ∃ nodes T', writeChunks ReferenceReth.reth false 1 false (fun _ _ => (none : Option Unit)) {}
        [n,m] = (.ok ⟨nodes,2⟩,T') ∧ T'.row (.storage B256.zero n.path) = some m.node := by
  intro n m
  obtain ⟨T',hrow,-,hrun⟩ := writeChunks_last_wins (ε := Unit) ReferenceReth.reth false {} [n,m]
  obtain ⟨nodes,h,-⟩ := hrun 1 (le_refl 1)
  have htwo : [n,m].length ⌈/⌉ 1 = 2 := Nat.ceilDiv_eq_add_pred_div 2 1
  rw [htwo] at h
  exact ⟨nodes,T',h,hrow (some B256.zero,n.path) rfl⟩

end Release
end TrieRebuild
