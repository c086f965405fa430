import TrieRebuild.Foundation.Parts
import TrieRebuild.Digest.NodeDigest
import TrieRebuild.Digest.ScanRanges
import TrieRebuild.Trie.ReferenceReth

/-! `digest_tables`: a serial walk of the account trie table and sixteen range scans of the
storage trie table that run side by side and share one digest. However the scans interleave and
their counts are reduced, every row is folded exactly once. -/
namespace TrieRebuild
open Foundation
variable {K S : Type}

/-- Node counts and digest of the trie tables. -/
structure TrieTablesDigest where
  accountNodes : UInt64
  storageNodes : UInt64
  digest : Digest
  deriving DecidableEq

/-- What reading cursors yield: `walk` every row of the account table, `walkRange` every storage
row, duplicates of a key included, whose address lies in the inclusive range. -/
structure TableCursors (R : TableRows K S) where
  walk : List (K × BranchNodeCompact)
  walkRange : B256 → B256 → List ((B256 × S) × BranchNodeCompact)
  walk_eq : (walk : Multiset _) = R.accounts.val
  walkRange_eq : ∀ low high, (walkRange low high : Multiset _) =
    R.storages.val.filter fun r => low ≤ r.1.1 ∧ r.1.1 ≤ high

/-- One range scan: the rows its cursor has yet to yield, and the rows counted. -/
structure RangeScan (S : Type) where
  rest : List ((B256 × S) × BranchNodeCompact)
  count : UInt64 := 0

/-- The rows a scan has yet to yield, in no order. -/
def RangeScan.rows (scan : RangeScan S) : Multiset ((B256 × S) × BranchNodeCompact) := scan.rest

/-- The scans over one digest. `folded` records the rows folded in, in order. -/
structure ScanState (S : Type) where
  scans : Fin 16 → RangeScan S
  digest : NodeDigest
  folded : List ((B256 × S) × BranchNodeCompact) := []

/-- `try_reduce` over a part of the ranges: nothing, one count, or two parts reduced in some way. -/
inductive Reduces : List UInt64 → UInt64 → Prop
  | identity : Reduces [] 0
  | single (count : UInt64) : Reduces [count] count
  | split {l m : List UInt64} {a b : UInt64} (hl : Reduces l a) (hm : Reduces m b) :
      Reduces (l ++ m) (a+b)

section Model
variable (hashOne : UInt64 → List UInt8 → UInt64) (P : NibblePacking) (A : TrieTableAdapter K S)

/-- The node an account row is folded as. -/
def accountNode (r : K × BranchNodeCompact) : Node := ⟨none,A.accountKeyToNibbles r.1,r.2⟩

/-- The node a storage row is folded as, under its own address. -/
def storageNode (r : (B256 × S) × BranchNodeCompact) : Node :=
  ⟨some r.1.1,A.subkeyToNibbles r.1.2,r.2⟩

/-- The serial walk, with its digest and count. -/
def walkAccounts (rows : List (K × BranchNodeCompact)) : NodeDigest × UInt64 :=
  rows.foldl (fun (s : NodeDigest × UInt64) r =>
    (NodeDigest.push hashOne P s.1 (accountNode A r),s.2+1)) ({},0)

/-- One scan takes its next row, folds it into the shared digest and counts it. -/
inductive ScanStep : ScanState S → ScanState S → Prop
  | entry (σ) (nibble : Fin 16) (r : (B256 × S) × BranchNodeCompact)
      (rest : List ((B256 × S) × BranchNodeCompact)) (h : (σ.scans nibble).rest = r::rest) :
      ScanStep σ {
        scans := Function.update σ.scans nibble ⟨rest,(σ.scans nibble).count+1⟩
        digest := NodeDigest.push hashOne P σ.digest (storageNode A r)
        folded := σ.folded ++ [r] }

/-- The scans before any has started, over the digest of the account walk. -/
def scanStart {R : TableRows K S} (C : TableCursors R) (digest : NodeDigest) : ScanState S where
  scans nibble := ⟨C.walkRange (rangeLow nibble) (rangeHigh nibble),0⟩
  digest := digest

/-- A possible outcome of `digest_tables` on given rows. -/
inductive DigestTables (R : TableRows K S) : TrieTablesDigest → Prop
  | intro (C : TableCursors R) (σ : ScanState S) (storageNodes : UInt64)
      (hrun : Relation.ReflTransGen (ScanStep hashOne P A)
        (scanStart C (walkAccounts hashOne P A C.walk).1) σ)
      (hdone : ∀ nibble, (σ.scans nibble).rest = [])
      (hreduce : Reduces ((List.finRange 16).map fun nibble => (σ.scans nibble).count)
        storageNodes) :
      DigestTables R ⟨(walkAccounts hashOne P A C.walk).2,storageNodes,σ.digest.snapshot⟩

/-- `digest_trie_tables`: the same in the key encoding the settings entry selects. -/
def DigestTrieTables [DecidableEq S] (R : Reth K S) (settings : Option (List UInt8))
    (T : TrieTables K S) (r : TrieTablesDigest) : Prop :=
  DigestTables hashOne P (R.adapter (R.usesPackedTrieKeys settings)) T.rows r

end Model

/-- Counts reduced in any way are their sum. -/
theorem Reduces.eq_sum {l : List UInt64} {s : UInt64} (h : Reduces l s) {ns : List ℕ}
    (hl : l = ns.map UInt64.ofNat) : s = UInt64.ofNat ns.sum := by
  induction h generalizing ns with
  | identity =>
    obtain rfl := List.map_eq_nil_iff.mp hl.symm
    rfl
  | single count =>
    obtain ⟨n,rfl,rfl⟩ := List.map_eq_singleton_iff.mp hl.symm
    simp
  | split hl' hm' ihl ihm =>
    obtain ⟨ks,ms,rfl,hk,hm⟩ := List.map_eq_append_iff.mp hl.symm
    rw [ihl hk.symm,ihm hm.symm,List.sum_append,UInt64.ofNat_add]

/-- Every list of counts can be reduced. -/
theorem exists_reduces (l : List UInt64) : ∃ s, Reduces l s := by
  induction l with
  | nil => exact ⟨0,.identity⟩
  | cons count l ih =>
    obtain ⟨s,hs⟩ := ih
    exact ⟨count+s,.split (.single count) hs⟩

/-- The sixteen ranges hand out every storage row once. -/
theorem sum_walkRange {R : TableRows K S} (C : TableCursors R) :
    ∑ nibble, (C.walkRange (rangeLow nibble) (rangeHigh nibble) : Multiset _) = R.storages.val := by
  have hrange : ∀ nibble, (C.walkRange (rangeLow nibble) (rangeHigh nibble) : Multiset _) =
      R.storages.val.filter fun r => firstNibble r.1.1 = nibble := by
    intro nibble
    rw [C.walkRange_eq]
    apply Multiset.filter_congr
    exact fun r _ => mem_range_iff nibble r.1.1
  rw [Finset.sum_congr rfl fun nibble _ => hrange nibble]
  exact sum_filter_eq (fun r : (B256 × S) × BranchNodeCompact => firstNibble r.1.1) _

section Run
variable {hashOne : UInt64 → List UInt8 → UInt64} {P : NibblePacking} {A : TrieTableAdapter K S}

theorem walkAccounts_eq (rows : List (K × BranchNodeCompact)) :
    walkAccounts hashOne P A rows =
      (NodeDigest.pushAll hashOne P {} (rows.map (accountNode A)),UInt64.ofNat rows.length) := by
  induction rows using List.reverseRecOn with
  | nil => rfl
  | append_singleton rows r ih =>
    rw [walkAccounts] at ih ⊢
    rw [List.foldl_append,ih,List.map_append,NodeDigest.pushAll_append,List.length_append,
      UInt64.ofNat_add]
    rfl

/-- What holds of the scans at any point: rows folded and rows to come are the rows handed out,
the digest has the folded ones, and each scan has counted what it no longer has. -/
structure ScanInv (hashOne : UInt64 → List UInt8 → UInt64) (P : NibblePacking)
    (A : TrieTableAdapter K S) {R : TableRows K S} (C : TableCursors R) (d : NodeDigest)
    (σ : ScanState S) : Prop where
  rows : (σ.folded : Multiset _)+∑ nibble, (σ.scans nibble).rows = R.storages.val
  digest : σ.digest = NodeDigest.pushAll hashOne P d (σ.folded.map (storageNode A))
  count : ∀ nibble, (σ.scans nibble).count+UInt64.ofNat (σ.scans nibble).rest.length =
    UInt64.ofNat (C.walkRange (rangeLow nibble) (rangeHigh nibble)).length

theorem ScanInv.start {R : TableRows K S} (C : TableCursors R) (d : NodeDigest) :
    ScanInv hashOne P A C d (scanStart C d) where
  rows := by
    rw [← sum_walkRange C]
    exact zero_add _
  digest := rfl
  count nibble := UInt64.zero_add _

theorem ScanInv.step {R : TableRows K S} {C : TableCursors R} {d : NodeDigest} {σ σ' : ScanState S}
    (h : ScanInv hashOne P A C d σ) (hs : ScanStep hashOne P A σ σ') :
    ScanInv hashOne P A C d σ' := by
  cases hs with
  | entry nibble r rest hrest =>
    refine ⟨?_,?_,fun n => ?_⟩
    · -- the row moves from the rest of its scan to the folded ones
      have hsum := sum_update_add RangeScan.rows σ.scans nibble ⟨rest,(σ.scans nibble).count+1⟩
      have hhead : (σ.scans nibble).rows = {r}+(rest : Multiset _) := by
        rw [RangeScan.rows,hrest]
        rfl
      have hparts : ∑ n, (σ.scans n).rows = {r}+
          ∑ n, (Function.update σ.scans nibble ⟨rest,(σ.scans nibble).count+1⟩ n).rows := by
        apply add_right_cancel (b := (rest : Multiset ((B256 × S) × BranchNodeCompact)))
        calc
          _ = _ := hsum.symm
          _ = _ := by rw [hhead,add_left_comm,add_assoc]
      rw [← h.rows,hparts,← Multiset.coe_add,add_assoc]
      rfl
    · rw [List.map_append,NodeDigest.pushAll_append,← h.digest]
      rfl
    · by_cases hn : n = nibble
      · subst hn
        have hc := h.count n
        rw [hrest,List.length_cons,UInt64.ofNat_add] at hc
        simp only [Function.update_self]
        rw [← hc,UInt64.add_assoc,UInt64.add_comm 1]
        rfl
      · simp only [Function.update_of_ne hn]
        exact h.count n

theorem ScanInv.of_run {R : TableRows K S} {C : TableCursors R} {d : NodeDigest} {σ : ScanState S}
    (h : Relation.ReflTransGen (ScanStep hashOne P A) (scanStart C d) σ) :
    ScanInv hashOne P A C d σ := by
  induction h with
  | refl => exact ScanInv.start C d
  | tail _ hs ih => exact ih.step hs

/-- Scans that are through have folded every storage row once. -/
theorem folded_eq {R : TableRows K S} {C : TableCursors R} {d : NodeDigest} {σ : ScanState S}
    (h : Relation.ReflTransGen (ScanStep hashOne P A) (scanStart C d) σ)
    (hdone : ∀ nibble, (σ.scans nibble).rest = []) :
    (σ.folded : Multiset _) = R.storages.val := by
  have hr := (ScanInv.of_run h).rows
  have hrows : ∀ nibble, (σ.scans nibble).rows = 0 := fun nibble => congrArg _ (hdone nibble)
  rw [Finset.sum_congr rfl fun n _ => hrows n] at hr
  simpa using hr

theorem nodes_eq_map (R : TableRows K S) :
    R.nodes A = R.accounts.val.map (accountNode A)+R.storages.val.map (storageNode A) := by
  rw [TableRows.nodes,TableRows.all,Multiset.map_add,Multiset.map_map,Multiset.map_map]
  rfl

/-- The outcome depends on the rows only: their numbers, and the digest of their nodes. -/
theorem digestTables_eq {R : TableRows K S} {r : TrieTablesDigest}
    (h : DigestTables hashOne P A R r) {ns : List Node} (hns : R.nodes A = ns) :
    r = ⟨UInt64.ofNat R.accounts.card,UInt64.ofNat R.storages.card,
      NodeDigest.ofStream hashOne P ns⟩ := by
  cases h with
  | intro C σ storageNodes hrun hdone hreduce =>
    have hinv := ScanInv.of_run hrun
    have hfolded := folded_eq hrun hdone
    have hlen : ∀ nibble, (σ.scans nibble).count =
        UInt64.ofNat (C.walkRange (rangeLow nibble) (rangeHigh nibble)).length := by
      intro nibble
      have hc := hinv.count nibble
      rw [hdone nibble] at hc
      simpa using hc
    have hstorage : storageNodes = UInt64.ofNat R.storages.card := by
      have hcounts : ((List.finRange 16).map fun nibble => (σ.scans nibble).count) =
          ((List.finRange 16).map fun nibble =>
            (C.walkRange (rangeLow nibble) (rangeHigh nibble)).length).map UInt64.ofNat := by
        rw [List.map_map]
        exact List.map_congr_left fun nibble _ => hlen nibble
      have hcard := congrArg Multiset.card (sum_walkRange C)
      rw [Multiset.card_sum] at hcard
      simp only [Multiset.coe_card] at hcard
      rw [hreduce.eq_sum hcounts,← Fin.sum_univ_def,hcard]
      rfl
    have haccounts : C.walk.length = R.accounts.card := congrArg Multiset.card C.walk_eq
    have hdigest : σ.digest.snapshot = NodeDigest.ofStream hashOne P ns := by
      rw [hinv.digest,walkAccounts_eq,← NodeDigest.pushAll_append]
      apply NodeDigest.ofStream_eq_of_coe
      rw [← hns,nodes_eq_map,← C.walk_eq,← hfolded,← Multiset.coe_add]
      rfl
    rw [walkAccounts_eq,haccounts,hstorage,hdigest]

end Run

section Existence
variable (hashOne : UInt64 → List UInt8 → UInt64) (P : NibblePacking) (A : TrieTableAdapter K S)

/-- The scans can always run to their end. -/
theorem exists_scan (σ : ScanState S) : ∃ σ', Relation.ReflTransGen (ScanStep hashOne P A) σ σ' ∧
    ∀ nibble, (σ'.scans nibble).rest = [] := by
  induction hn : ∑ nibble, (σ.scans nibble).rest.length generalizing σ with
  | zero =>
    refine ⟨σ,.refl,fun nibble => ?_⟩
    exact List.length_eq_zero_iff.mp ((Finset.sum_eq_zero_iff.mp hn) nibble (Finset.mem_univ _))
  | succ k ih =>
    obtain ⟨nibble,-,hne⟩ := Finset.exists_ne_zero_of_sum_ne_zero
      (show ∑ nibble, (σ.scans nibble).rest.length ≠ 0 by omega)
    obtain ⟨r,rest,hrest⟩ := List.exists_cons_of_length_pos (Nat.pos_of_ne_zero hne)
    have hs : ScanStep hashOne P A σ _ := .entry σ nibble r rest hrest
    have hlen := sum_update_add (fun scan : RangeScan S => scan.rest.length) σ.scans nibble
      ⟨rest,(σ.scans nibble).count+1⟩
    simp only [hrest,List.length_cons] at hlen
    obtain ⟨σ',hr,hdone⟩ := ih {
      scans := Function.update σ.scans nibble ⟨rest,(σ.scans nibble).count+1⟩
      digest := NodeDigest.push hashOne P σ.digest (storageNode A r)
      folded := σ.folded ++ [r] } (by dsimp only; omega)
    exact ⟨σ',.head hs hr,hdone⟩

/-- Cursors over given rows, in some order. -/
theorem exists_cursors (R : TableRows K S) : Nonempty (TableCursors R) :=
  ⟨{ walk := R.accounts.val.toList
     walkRange := fun low high =>
      (R.storages.val.filter fun r => low ≤ r.1.1 ∧ r.1.1 ≤ high).toList
     walk_eq := Multiset.coe_toList _
     walkRange_eq := fun _ _ => Multiset.coe_toList _ }⟩

/-- `digest_tables` has an outcome on every contents of the tables. -/
theorem exists_digestTables (R : TableRows K S) : ∃ r, DigestTables hashOne P A R r := by
  obtain ⟨C⟩ := exists_cursors R
  obtain ⟨σ,hrun,hdone⟩ := exists_scan hashOne P A (scanStart C (walkAccounts hashOne P A C.walk).1)
  obtain ⟨s,hs⟩ := exists_reduces ((List.finRange 16).map fun nibble => (σ.scans nibble).count)
  exact ⟨_,.intro C σ s hrun hdone hs⟩

end Existence

/-- The sixteen scans run to an outcome, and however they run and their counts are reduced, every
row is counted once and folded once; the ranges share out the addresses. -/
theorem digestTables_folds_rows_once (hashOne : UInt64 → List UInt8 → UInt64) (P : NibblePacking)
    (A : TrieTableAdapter K S) (R : TableRows K S) :
    (∃ r, DigestTables hashOne P A R r) ∧
      (∀ r, DigestTables hashOne P A R r →
        r.accountNodes.toNat = R.accounts.card % 2^64 ∧
        r.storageNodes.toNat = R.storages.card % 2^64 ∧
        r.digest.count = r.accountNodes+r.storageNodes ∧
        ∀ accounts storages : List _, (accounts : Multiset _) = R.accounts.val →
          (storages : Multiset _) = R.storages.val →
            r.digest.fold = (NodeDigest.ofStream hashOne P
              (accounts.map (accountNode A) ++ storages.map (storageNode A))).fold) ∧
      ∀ a, ∃! nibble, rangeLow nibble ≤ a ∧ a ≤ rangeHigh nibble := by
  refine ⟨exists_digestTables hashOne P A R,fun r h => ?_,fun a => ?_⟩
  · have hstream : ∀ accounts storages : List _, (accounts : Multiset _) = R.accounts.val →
        (storages : Multiset _) = R.storages.val →
          r = ⟨UInt64.ofNat R.accounts.card,UInt64.ofNat R.storages.card,
            NodeDigest.ofStream hashOne P
              (accounts.map (accountNode A) ++ storages.map (storageNode A))⟩ := by
      intro accounts storages ha hs
      apply digestTables_eq h
      rw [nodes_eq_map,← ha,← hs]
      rfl
    have hr := hstream R.accounts.val.toList R.storages.val.toList
      (Multiset.coe_toList _) (Multiset.coe_toList _)
    refine ⟨?_,?_,?_,?_⟩
    · rw [hr,UInt64.toNat_ofNat']
    · rw [hr,UInt64.toNat_ofNat']
    · rw [hr,NodeDigest.count_ofStream,List.length_append,List.length_map,List.length_map,
        Multiset.length_toList,Multiset.length_toList,UInt64.ofNat_add]
      rfl
    · intro accounts storages ha hs
      rw [hstream accounts storages ha hs]
  · refine ⟨firstNibble a,(mem_range_iff _ a).mpr rfl,fun nibble hn => ?_⟩
    exact ((mem_range_iff nibble a).mp hn).symm

open ReferenceReth in
/-- One account row and two storage rows. -/
theorem digestTables_folds_rows_once_sample :
    ∃ r, DigestTables (fun _ _ => 7) .standard pathAdapter (sampleRows 1 2 3) r ∧
      r.accountNodes.toNat = 1 ∧ r.storageNodes.toNat = 2 := by
  obtain ⟨⟨r,hr⟩,hall,-⟩ :=
    digestTables_folds_rows_once (fun _ _ => 7) .standard pathAdapter (sampleRows 1 2 3)
  obtain ⟨haccounts,hstorages,-⟩ := hall r hr
  have hcards : (sampleRows 1 2 3).accounts.card = 1 ∧ (sampleRows 1 2 3).storages.card = 2 := by
    decide
  rw [hcards.1] at haccounts
  rw [hcards.2] at hstorages
  exact ⟨r,hr,haccounts,hstorages⟩

end TrieRebuild
