import TrieRebuild.Digest.TableScan
import TrieRebuild.Rebuild.Upserts
import TrieRebuild.Sink.Conservation
import TrieRebuild.Sink.TrieUpdatesSink

/-! Parity: an emitted node set has one digest, whether it is streamed, collected, written in one go
or written in chunks. -/
namespace TrieRebuild
open Foundation
variable {K S : Type} [DecidableEq K] [DecidableEq S]
variable (hashOne : UInt64 → List UInt8 → UInt64) (P : NibblePacking) (R : Reth K S)
variable (settings : Option (List UInt8))

/-- `digest_trie_tables` yields a digest on given tables, however its scans run. -/
structure YieldsDigest (T : TrieTables K S) (d : Digest) : Prop where
  yields : ∃ r, DigestTrieTables hashOne P R settings T r
  digest : ∀ r, DigestTrieTables hashOne P R settings T r → r.digest = d

omit [DecidableEq K] in
/-- Tables that hold some nodes have the digest of these nodes. -/
theorem yieldsDigest_of_nodes {T : TrieTables K S} {ns : List Node}
    (h : T.nodes (R.adapter (R.usesPackedTrieKeys settings)) = (ns : Multiset Node)) :
    YieldsDigest hashOne P R settings T (NodeDigest.ofStream hashOne P ns) where
  yields := exists_digestTables hashOne P _ T.rows
  digest r hr := by rw [digestTables_eq hr h]

/-- Writing collected nodes to empty tables leaves these nodes. -/
theorem writeTrieUpdates_collect {ε : Type} {ns : List Node} (hn : (ns.map Node.key).Nodup)
    (hs : ∀ n ∈ ns, n.path.isEmpty = false) :
    ∃ written T, (writeTrieUpdates R settings (.collect ns) : Tx ε (TrieTables K S) ℕ).run
        Tx.noFault {} = (.ok written,T) ∧
      T.nodes (R.adapter (R.usesPackedTrieKeys settings)) = (ns : Multiset Node) := by
  obtain ⟨c,T,hy,hr⟩ := writeTrieUpdates_yields (ε := ε) R settings (.collect ns) {}
  rw [patch_collect] at hr
  have hstorable : ns.filter Node.storable = ns := by
    apply List.filter_eq_self.mpr
    intro n hm
    rw [Node.storable,hs n hm]
    rfl
  refine ⟨_,T,hy.run_noFault,?_⟩
  rw [TrieTables.ext_row hr,TrieTables.nodes_overlaid_empty _ hn,hstorable]

/-- Distinct nodes with non-empty paths have the same digest streamed into a `NodeDigest`,
collected in a `TrieUpdatesSink`, written from there to empty tables, and sent through an
`MdbxWriteSink` over empty tables, which also counts them. -/
theorem digests_agree {ι ε : Type} [DecidableEq ι] (i : ι) (debugAssertions : Bool)
    (chunkNodes : ℕ) (ns : List Node) (hn : (ns.map Node.key).Nodup)
    (hs : ∀ n ∈ ns, n.path.isEmpty = false) :
    (∃ sink u, TrieUpdatesSink.feed debugAssertions {} ns = (none,sink) ∧
      sink.intoTrieUpdates = some u ∧
      (∀ it, Iterates u it →
        NodeDigest.ofTrieUpdates hashOne P it = NodeDigest.ofStream hashOne P ns) ∧
      ∃ written T, (writeTrieUpdates R settings u : Tx ε (TrieTables K S) ℕ).run Tx.noFault {} =
          (.ok written,T) ∧
        YieldsDigest hashOne P R settings T (NodeDigest.ofStream hashOne P ns)) ∧
    (∃ σ : MdbxWriteSink ι ε K S,
      MdbxWriteSink.Reaches R (R.usesPackedTrieKeys settings) (max chunkNodes 1) debugAssertions
        MdbxWriteSink.noFaults (.start {}) σ ∧
      σ.called = ns ∧ ∃ result, σ.finish = .returned result) ∧
    ∀ σ : MdbxWriteSink ι ε K S,
      MdbxWriteSink.Reaches R (R.usesPackedTrieKeys settings) (max chunkNodes 1) debugAssertions
        MdbxWriteSink.noFaults (.start {}) σ →
      (σ.called : Multiset Node) = ns → ∀ result, σ.finish = .returned result →
        ∃ written, result = .ok written ∧
          YieldsDigest hashOne P R settings σ.tables (NodeDigest.ofStream hashOne P ns) ∧
          (NodeDigest.ofStream hashOne P ns).count = UInt64.ofNat written.nodes := by
  have hc : 0 < max chunkNodes 1 := lt_of_lt_of_le Nat.one_pos (le_max_right _ _)
  refine ⟨?_,?_,fun σ hr hcalled result hf => ?_⟩
  · have hi : ∀ n ∈ ns, (TrieUpdatesSink.shardIndex n).isSome :=
      fun n hm => (TrieUpdatesSink.shardIndex_isSome_iff n).mpr fun _ => hs n hm
    obtain ⟨sink,hfeed,hsink⟩ := TrieUpdatesSink.feed_holds hi fun _ : debugAssertions = true => hn
    obtain ⟨written,T,hwrite,hT⟩ := writeTrieUpdates_collect (ε := ε) R settings hn hs
    refine ⟨sink,_,hfeed,hsink.intoTrieUpdates_eq,fun it hit => ?_,written,T,hwrite,
      yieldsDigest_of_nodes hashOne P R settings hT⟩
    exact NodeDigest.ofTrieUpdates_eq hashOne P hit (TrieUpdates.nodes_collect hn)
  · obtain ⟨σ,hr,hcalled,written,hf⟩ := MdbxWriteSink.exists_finishing_run (ε := ε) (R := R)
      (T := {}) debugAssertions hc i hn
    exact ⟨σ,hr,hcalled,_,hf⟩
  · have hperm := Multiset.coe_eq_coe.mp hcalled
    obtain ⟨rfl,hT,-,-⟩ := MdbxWriteSink.finished_of_reaches R _ debugAssertions hc hr
      ((hperm.map Node.key).nodup_iff.mpr hn) (fun n hm => hs n (hperm.mem_iff.mp hm)) hf
    refine ⟨_,rfl,yieldsDigest_of_nodes hashOne P R settings (hT.trans hcalled),?_⟩
    rw [NodeDigest.count_ofStream,hperm.length_eq]

open ReferenceReth in
/-- A node of the state trie and one at the same path of the storage trie of the zero address:
streamed, collected, written in one go, and sent through a sink in chunks of one. -/
theorem digests_agree_sample :
    let ns := [sampleNode none 1,sampleNode (some B256.zero) 1]
    let hashOne := fun (seed : UInt64) (bytes : List UInt8) => seed+UInt64.ofNat bytes.length
    let d := NodeDigest.ofStream hashOne .standard ns
    (∃ sink u, TrieUpdatesSink.feed true {} ns = (none,sink) ∧ sink.intoTrieUpdates = some u ∧
      (∀ it, Iterates u it → NodeDigest.ofTrieUpdates hashOne .standard it = d) ∧
      ∃ written T, (writeTrieUpdates reth none u : Tx Unit (TrieTables Nibbles Nibbles) ℕ).run
          Tx.noFault {} = (.ok written,T) ∧
        YieldsDigest hashOne .standard reth none T d) ∧
    ∃ (σ : MdbxWriteSink Unit Unit Nibbles Nibbles) (written : Written),
      σ.called = ns ∧ σ.finish = .returned (.ok written) ∧
      YieldsDigest hashOne .standard reth none σ.tables d ∧ UInt64.ofNat written.nodes = 2 := by
  intro ns hashOne d
  obtain ⟨⟨sink,u,hfeed,hu,hdigest,hwritten⟩,⟨σ,hr,hcalled,result,hf⟩,hall⟩ :=
    digests_agree (ε := Unit) hashOne .standard reth none () true 0 ns (by decide) (by decide)
  obtain ⟨written,rfl,hyields,hcount⟩ := hall σ hr (by rw [hcalled]) result hf
  refine ⟨⟨sink,u,hfeed,hu,hdigest,hwritten⟩,σ,written,hcalled,hf,hyields,?_⟩
  rw [← hcount,NodeDigest.count_ofStream]
  rfl

end TrieRebuild
