import TrieRebuild.Rebuild.WriteUpdates

/-! What `write_trie_updates_with` leaves behind: the tables patched by the updates, whatever
order the hash maps were met in, and the number of entries it reports. -/
namespace TrieRebuild
open Foundation
variable {ε K S : Type} [DecidableEq K] [DecidableEq S]

section AccountLoop
variable (A : TrieTableAdapter K S)

/-- The write a listed account entry stands for. -/
def accountWrite (e : Nibbles × Option BranchNodeCompact) :
    Option (RowKey K S × Option BranchNodeCompact) :=
  if e.2.isSome && e.1.isEmpty then none else some (.account (A.accountKey e.1),e.2)

/-- Whether a listed account entry is counted over given tables. -/
def accountCounts (T : TrieTables K S) (e : Nibbles × Option BranchNodeCompact) : Bool :=
  if e.2.isSome then !e.1.isEmpty else decide (A.accountKey e.1 ∈ T.accounts)

omit [DecidableEq K] [DecidableEq S] in
theorem mem_accountWrites {l : List (Nibbles × Option BranchNodeCompact)} {k : RowKey K S}
    (h : k ∈ (l.filterMap (accountWrite A)).map Prod.fst) :
    ∃ e ∈ l, k = .account (A.accountKey e.1) := by
  obtain ⟨w,hw,rfl⟩ := List.mem_map.mp h
  obtain ⟨e,he,hwe⟩ := List.mem_filterMap.mp hw
  refine ⟨e,he,?_⟩
  unfold accountWrite at hwe
  split_ifs at hwe
  cases hwe
  rfl

omit [DecidableEq K] [DecidableEq S] in
theorem nodup_accountWrites {l : List (Nibbles × Option BranchNodeCompact)}
    (h : (l.map Prod.fst).Nodup) : ((l.filterMap (accountWrite A)).map Prod.fst).Nodup := by
  induction l with
  | nil => simp
  | cons e l ih =>
    rw [List.map_cons,List.nodup_cons] at h
    rw [List.filterMap_cons]
    cases hw : accountWrite A e with
    | none => exact ih h.2
    | some w =>
      rw [List.map_cons,List.nodup_cons]
      refine ⟨fun hm => ?_,ih h.2⟩
      obtain ⟨e',he',hk⟩ := mem_accountWrites A hm
      unfold accountWrite at hw
      split_ifs at hw
      cases hw
      -- distinct paths are stored under distinct keys
      have hp := A.accountKey_injective (RowKey.account.inj hk)
      exact h.1 (hp ▸ List.mem_map_of_mem he')

/-- One iteration, over tables that still hold the entry's earlier row. -/
theorem writeAccountNode_yields (T T₁ : TrieTables K S) (e : Nibbles × Option BranchNodeCompact)
    (written : ℕ) (hrow : T₁.accounts.lookup (A.accountKey e.1) = T.accounts.lookup (A.accountKey e.1)) :
    ∃ c T₂, (writeAccountNode A written e : Tx ε (TrieTables K S) ℕ).Yields T₁
        (written + if accountCounts A T e then 1 else 0) c T₂ ∧
      T₂.row = (Patch.ofWrites (accountWrite A e).toList).apply T₁.row := by
  obtain ⟨p,b⟩ := e
  cases b with
  | some b =>
    by_cases hp : p.isEmpty
    · refine ⟨0,T₁,?_,?_⟩
      · simpa [writeAccountNode,accountCounts,hp] using Tx.yields_pure T₁ written
      · funext k; simp [accountWrite,hp,Patch.apply]
    · have hm := Tx.yields_modify_pure (ε := ε)
        (TrieTables.upsertAccount (A.accountKey p) b) T₁ (written+1)
      refine ⟨1,T₁.upsertAccount (A.accountKey p) b,?_,?_⟩
      · simpa [writeAccountNode,accountCounts,hp] using hm
      · simpa [accountWrite,hp] using TrieTables.row_upsertAccount T₁ (A.accountKey p) b
  | none =>
    have hseek := Tx.yields_call (ε := ε)
      (fun T : TrieTables K S => (T.accounts.lookup (A.accountKey p),T)) T₁
    by_cases hf : A.accountKey p ∈ T.accounts
    · have hs : (T₁.accounts.lookup (A.accountKey p)).isSome := by
        rw [hrow]; exact Finmap.lookup_isSome.mpr hf
      have hm := Tx.yields_modify_pure (ε := ε)
        (TrieTables.deleteAccount (A.accountKey p)) T₁ (written+1)
      have h : (writeAccountNode A written (p,none) : Tx ε (TrieTables K S) ℕ).Yields T₁
          (written+1) (1+1) (T₁.deleteAccount (A.accountKey p)) :=
        hseek.bind (by simpa only [hs,if_true] using hm)
      refine ⟨1+1,_,?_,TrieTables.row_deleteAccount T₁ (A.accountKey p)⟩
      simpa [accountCounts,hf] using h
    · have hn : T₁.accounts.lookup (A.accountKey p) = none := by
        rw [hrow]; exact Finmap.lookup_eq_none.mpr hf
      have h : (writeAccountNode A written (p,none) : Tx ε (TrieTables K S) ℕ).Yields T₁
          written (1+0) T₁ :=
        hseek.bind (by simpa [hn] using Tx.yields_pure T₁ written)
      refine ⟨1+0,T₁,?_,?_⟩
      · simpa [accountCounts,hf] using h
      · -- the row the patch clears was absent
        funext k
        by_cases hk : k = .account (A.accountKey p)
        · subst hk; simp [accountWrite,Patch.apply,Patch.ofWrites_cons,hn]
        · simp [accountWrite,Patch.apply,Patch.ofWrites_cons,hk]

/-- The account loop, over entries with distinct paths. -/
theorem writeAccountNodes_yields (sorted : TrieUpdatesSorted)
    (hn : (sorted.accountNodes.map Prod.fst).Nodup) (T : TrieTables K S) :
    ∃ c T', (writeAccountNodes A sorted : Tx ε (TrieTables K S) ℕ).Yields T
        (sorted.accountNodes.filter (accountCounts A T)).length c T' ∧
      T'.row = (Patch.ofWrites (sorted.accountNodes.filterMap (accountWrite A))).apply T.row := by
  let I := fun (done : List (Nibbles × Option BranchNodeCompact)) written (T₁ : TrieTables K S) =>
    written = (done.filter (accountCounts A T)).length ∧
      T₁.row = (Patch.ofWrites (done.filterMap (accountWrite A))).apply T.row
  have hstep : ∀ done e rest, sorted.accountNodes = done ++ e::rest → ∀ written T₁,
      I done written T₁ → ∃ written' c T₂,
        (writeAccountNode A written e : Tx ε (TrieTables K S) ℕ).Yields T₁ written' c T₂ ∧
          I (done ++ [e]) written' T₂ := by
    rintro done e rest hl written T₁ ⟨hw,hr⟩
    -- no earlier entry has this path, so its row is still the one of `T`
    have hrow : T₁.accounts.lookup (A.accountKey e.1) = T.accounts.lookup (A.accountKey e.1) := by
      have hk : Patch.ofWrites (done.filterMap (accountWrite A))
          (.account (A.accountKey e.1) : RowKey K S) = none := by
        rw [Patch.ofWrites_eq_none_iff]
        intro hm
        obtain ⟨e',he',hk⟩ := mem_accountWrites A hm
        have hp := A.accountKey_injective (RowKey.account.inj hk)
        rw [hl,List.map_append,List.map_cons] at hn
        exact List.disjoint_of_nodup_append hn (hp ▸ List.mem_map_of_mem he') List.mem_cons_self
      have := congrFun hr (.account (A.accountKey e.1))
      rwa [Patch.apply_of_eq_none hk] at this
    obtain ⟨c,T₂,hy,hr₂⟩ := writeAccountNode_yields (ε := ε) A T T₁ e written hrow
    refine ⟨_,c,T₂,hy,?_,?_⟩
    · rw [hw,List.filter_append,List.length_append]
      cases hc : accountCounts A T e <;> simp [hc]
    · rw [hr₂,hr,← Patch.apply_andThen,← Patch.ofWrites_append,List.filterMap_append]
      congr 3
  obtain ⟨w,c,T',hy,hw,hr⟩ := Tx.yields_foldlM (ε := ε) I sorted.accountNodes hstep
    (a := 0) (s := T) ⟨rfl,by funext k; simp [Patch.apply]⟩
  exact ⟨1+c,T',((Tx.yields_touch T).bind (hw ▸ hy)),hr⟩

/-- The account writes of sorted updates are the account part of their patch. -/
theorem ofWrites_accountWrites {u : TrieUpdates} {sorted : TrieUpdatesSorted}
    (hs : IntoSorted u sorted) (key : K) :
    Patch.ofWrites (sorted.accountNodes.filterMap (accountWrite A)) (.account key : RowKey K S) =
      u.patch A (.account key) := by
  have hn := nodup_accountWrites (S := S) A hs.accountNodes.nodup
  apply Option.ext
  intro b
  rw [Patch.ofWrites_eq_some_iff hn]
  simp only [List.mem_filterMap,accountWrite,Prod.exists,TrieUpdates.patch,onStored,
    TrieUpdates.accountPatch]
  constructor
  · rintro ⟨p,b',hm,hw⟩
    split_ifs at hw with hc
    simp only [Option.some.injEq,Prod.mk.injEq,RowKey.account.injEq] at hw
    obtain ⟨rfl,rfl⟩ := hw
    rw [A.accountKey_decodes,if_pos rfl,(hs.accountNodes.mem_iff p b').mp hm,
      Option.filter_eq_some_iff]
    exact ⟨rfl,by rw [Bool.not_eq_true',Bool.eq_false_iff]; exact hc⟩
  · intro h
    split_ifs at h with hk
    rw [Option.filter_eq_some_iff] at h
    refine ⟨A.accountKeyToNibbles key,b,(hs.accountNodes.mem_iff _ b).mpr h.1,?_⟩
    rw [if_neg (Bool.eq_false_iff.mp ((Bool.not_eq_true' _).mp h.2)),hk]

end AccountLoop

section StorageLoop
variable (R : Reth K S) (A : TrieTableAdapter K S)

/-- The cursor's effect on one account is what the patch says about that account's rows. -/
theorem storageTable_lookup {u : TrieUpdates} {a : B256} {t : StorageTrieUpdatesSorted}
    {v : StorageTrieUpdates} (hv : u.storageTries.lookup a = some v)
    (hd : t.isDeleted = v.isDeleted) (hl : ListsPaths v.storageNodes v.removedNodes t.storageNodes)
    (T : TrieTables K S) (s : S) :
    (R.writeStorageTrieUpdatesSorted A a t T.storages).2.lookup (a,s) =
      (u.patch A).apply T.row (.storage a s) := by
  have hspec := R.storageCursor_spec A
  simp only [Patch.apply,TrieUpdates.patch,hv,Option.bind_some,onStored,StorageTrieUpdates.patch]
  by_cases hlisted : ∃ e ∈ t.storageNodes, e.1.isEmpty = false ∧ A.subkey e.1 = s
  · obtain ⟨⟨p,b⟩,he,hp,rfl⟩ := hlisted
    rw [hspec.listed a t T.storages p b hl.nodup he hp,A.subkey_decodes,if_pos rfl]
    rw [(hl.mem_iff p b).mp he]
    simp only at hp
    simp [hp]
  · push Not at hlisted
    rw [hspec.unlisted a t T.storages s hlisted,← hd]
    have hnone : (if A.subkey (A.subkeyToNibbles s) = s then
        if (A.subkeyToNibbles s).isEmpty = true then none
        else listedAt v.storageNodes v.removedNodes (A.subkeyToNibbles s)
        else none) = none := by
      split_ifs with hk hp
      · rfl
      · by_contra hne
        obtain ⟨b,hb⟩ := Option.ne_none_iff_exists'.mp hne
        exact hlisted _ ((hl.mem_iff _ b).mpr hb) (by simpa using hp) hk
      · rfl
    rw [hnone]
    cases t.isDeleted <;> simp

omit [DecidableEq K] in
/-- The cursor reports the entries of the trie it was given. -/
theorem storageTrie_entries {a : B256} {t : StorageTrieUpdatesSorted} {v : StorageTrieUpdates}
    (hl : ListsPaths v.storageNodes v.removedNodes t.storageNodes) (T : StorageTable S) :
    (R.writeStorageTrieUpdatesSorted A a t T).1 = v.entries := by
  rw [(R.storageCursor_spec A).entries]
  have h := hl.length_filter (fun p => !p.isEmpty) (fun p => !p.isEmpty)
  simp only [ite_self] at h
  rw [h]
  simp [StorageTrieUpdates.entries]

/-- Entries reported for one address. -/
def TrieUpdates.entriesAt (u : TrieUpdates) (a : B256) : ℕ :=
  ((u.storageTries.lookup a).map StorageTrieUpdates.entries).getD 0

theorem storageEntries_eq_sum {u : TrieUpdates} {sorted : TrieUpdatesSorted}
    (hs : IntoSorted u sorted) :
    ((sorted.storageTries.map Prod.fst).map u.entriesAt).sum = u.storageEntries := by
  have hkeys : ((sorted.storageTries.map Prod.fst : List B256) : Multiset B256) =
      (FiniteMap.pairs u.storageTries).map Prod.fst := by
    apply (Multiset.Nodup.ext (Multiset.coe_nodup.mpr hs.nodup) (FiniteMap.nodup_keys_pairs _)).mpr
    intro a
    rw [Multiset.mem_coe,hs.mem_iff,FiniteMap.keys_pairs]
    exact Finmap.mem_keys.symm
  rw [← Multiset.sum_coe,← Multiset.map_coe,hkeys,Multiset.map_map,TrieUpdates.storageEntries]
  congr 1
  apply Multiset.map_congr rfl
  rintro ⟨a,v⟩ hm
  simp [TrieUpdates.entriesAt,FiniteMap.mem_pairs.mp hm]

/-- One iteration of the storage loop. -/
theorem writeStorageTrie_yields {u : TrieUpdates} {sorted : TrieUpdatesSorted}
    (hs : IntoSorted u sorted) {e : B256 × StorageTrieUpdatesSorted} (he : e ∈ sorted.storageTries)
    (T : TrieTables K S) (written : ℕ) :
    ∃ T', (writeStorageTrie R A written e : Tx ε (TrieTables K S) ℕ).Yields T
        (written+u.entriesAt e.1) 1 T' ∧ T'.accounts = T.accounts ∧
      (∀ s, T'.row (.storage e.1 s) = (u.patch A).apply T.row (.storage e.1 s)) ∧
      ∀ a s, a ≠ e.1 → T'.row (.storage a s) = T.row (.storage a s) := by
  obtain ⟨a,t⟩ := e
  obtain ⟨v,hv⟩ := Finmap.mem_iff.mp ((hs.mem_iff a).mp (List.mem_map_of_mem he))
  obtain ⟨hd,hl⟩ := hs.storageTrie a t v he hv
  have hcall := Tx.yields_call (ε := ε) (fun T : TrieTables K S =>
    let w := R.writeStorageTrieUpdatesSorted A a t T.storages
    (w.1,{ T with storages := w.2 })) T
  have hentries := storageTrie_entries R A (a := a) hl T.storages
  refine ⟨_,(hcall.bind (k := fun entries => pure (written+entries)) (Tx.yields_pure _ _)).congr
    ?_ rfl,rfl,?_,?_⟩
  · simp [TrieUpdates.entriesAt,hv,hentries]
  · exact storageTable_lookup R A hv hd hl T
  · intro a' s hne
    exact (R.storageCursor_spec A).frame a t T.storages a' s hne

/-- The storage loop: every listed account's rows are patched, no other row moves. -/
theorem writeStorageTries_yields {u : TrieUpdates} {sorted : TrieUpdatesSorted}
    (hs : IntoSorted u sorted) (T : TrieTables K S) (written : ℕ) :
    ∃ c T', (writeStorageTries R A sorted written : Tx ε (TrieTables K S) ℕ).Yields T
        (written+u.storageEntries) c T' ∧ T'.accounts = T.accounts ∧
      ∀ a s, T'.row (.storage a s) = (u.patch A).apply T.row (.storage a s) := by
  let tries := sorted.storageTries.insertionSort fun s t => s.1 ≤ t.1
  have hp : tries.Perm sorted.storageTries := List.perm_insertionSort _ _
  have hn : (tries.map Prod.fst).Nodup := (hp.map _).nodup_iff.mpr hs.nodup
  let I := fun (done : List (B256 × StorageTrieUpdatesSorted)) w (T₁ : TrieTables K S) =>
    w = written+((done.map Prod.fst).map u.entriesAt).sum ∧ T₁.accounts = T.accounts ∧
      ∀ a s, T₁.row (.storage a s) =
        if a ∈ done.map Prod.fst then (u.patch A).apply T.row (.storage a s)
        else T.row (.storage a s)
  have hstep : ∀ done e rest, tries = done ++ e::rest → ∀ w T₁, I done w T₁ → ∃ w' c T₂,
      (writeStorageTrie R A w e : Tx ε (TrieTables K S) ℕ).Yields T₁ w' c T₂ ∧
        I (done ++ [e]) w' T₂ := by
    rintro done e rest hl w T₁ ⟨hw,ha,hr⟩
    have he : e ∈ sorted.storageTries := hp.mem_iff.mp (by simp [hl])
    have hfresh : e.1 ∉ done.map Prod.fst := by
      rw [hl,List.map_append,List.map_cons] at hn
      exact fun hm => List.disjoint_of_nodup_append hn hm List.mem_cons_self
    obtain ⟨T₂,hy,ha₂,hown,hother⟩ := writeStorageTrie_yields (ε := ε) R A hs he T₁ w
    refine ⟨_,1,T₂,hy,?_,ha₂.trans ha,fun a s => ?_⟩
    · simp [hw,Nat.add_assoc]
    · simp only [List.map_append,List.mem_append]
      by_cases hae : a = e.1
      · subst hae
        have hrow := hr e.1 s
        rw [if_neg hfresh] at hrow
        rw [hown,if_pos (.inr (by simp)),Patch.apply,hrow]
        rfl
      · have hiff : a ∈ done.map Prod.fst ∨ a ∈ [e].map Prod.fst ↔ a ∈ done.map Prod.fst := by
          simp [hae]
        rw [hother a s hae,hr]
        simp only [hiff]
  obtain ⟨w,c,T',hy,hw,ha,hr⟩ := Tx.yields_foldlM (ε := ε) I tries hstep
    (a := written) (s := T) ⟨by simp,rfl,by simp⟩
  have hsum : w = written+u.storageEntries := by
    rw [hw,← storageEntries_eq_sum hs,((hp.map Prod.fst).map u.entriesAt).sum_eq]
  refine ⟨1+c,T',(Tx.yields_touch T).bind (hsum ▸ hy),ha,fun a s => ?_⟩
  rw [hr]
  split_ifs with hm
  · rfl
  · -- an address that is not listed has no patch
    have hnot : a ∉ u.storageTries := fun h => hm ((hp.map _).mem_iff.mpr ((hs.mem_iff a).mpr h))
    simp [Patch.apply,TrieUpdates.patch,Finmap.lookup_eq_none.mpr hnot]

end StorageLoop

section Whole
variable (R : Reth K S) (A : TrieTableAdapter K S)

omit [DecidableEq S] in
/-- The account part of the reported count. -/
theorem accountEntries_eq_length {u : TrieUpdates} {sorted : TrieUpdatesSorted}
    (hs : IntoSorted u sorted) (T : TrieTables K S) :
    (sorted.accountNodes.filter (accountCounts A T)).length = u.accountEntries A T := by
  have h := hs.accountNodes.length_filter (fun p => !p.isEmpty)
    (fun p => decide (A.accountKey p ∈ T.accounts))
  change (sorted.accountNodes.filter fun e =>
    if e.2.isSome then !e.1.isEmpty else decide (A.accountKey e.1 ∈ T.accounts)).length = _
  rw [h]
  simp [TrieUpdates.accountEntries]

/-- The account loop patches the account table and reports the account entries. -/
theorem writeAccountNodes_spec {u : TrieUpdates} {sorted : TrieUpdatesSorted}
    (hs : IntoSorted u sorted) (T : TrieTables K S) :
    ∃ c T', (writeAccountNodes A sorted : Tx ε (TrieTables K S) ℕ).Yields T
        (u.accountEntries A T) c T' ∧ T'.storages = T.storages ∧
      ∀ key, T'.row (.account key) = (u.patch A).apply T.row (.account key) := by
  obtain ⟨c,T',hy,hr⟩ := writeAccountNodes_yields (ε := ε) A sorted hs.accountNodes.nodup T
  rw [accountEntries_eq_length A hs] at hy
  refine ⟨c,T',hy,?_,fun key => ?_⟩
  · apply Finmap.ext_lookup
    rintro ⟨a,s⟩
    have hrow := congrFun hr (.storage a s)
    rwa [Patch.apply_of_eq_none] at hrow
    rw [Patch.ofWrites_eq_none_iff]
    intro hm
    obtain ⟨e,_,he⟩ := mem_accountWrites A hm
    cases he
  · rw [hr,Patch.apply,ofWrites_accountWrites A hs]
    rfl

/-- Writing sorted updates patches the tables; nothing depends on the order they were sorted
from. -/
theorem writeSorted_yields {u : TrieUpdates} {sorted : TrieUpdatesSorted}
    (hs : IntoSorted u sorted) (T : TrieTables K S) :
    ∃ c T', (writeSorted R A sorted : Tx ε (TrieTables K S) ℕ).Yields T
        (u.accountEntries A T+u.storageEntries) c T' ∧ T'.row = (u.patch A).apply T.row := by
  obtain ⟨c₁,T₁,hy₁,hst,hacc⟩ := writeAccountNodes_spec (ε := ε) A hs T
  obtain ⟨c₂,T₂,hy₂,ha,hr⟩ := writeStorageTries_yields (ε := ε) R A hs T₁ (u.accountEntries A T)
  refine ⟨c₁+c₂,T₂,hy₁.bind hy₂,?_⟩
  funext k
  cases k with
  | account key => rw [← hacc key,TrieTables.row_account,TrieTables.row_account,ha]
  | storage a s => rw [hr a s,Patch.apply,Patch.apply,TrieTables.row_storage,hst]; rfl

theorem writeTrieUpdatesWith_yields (u : TrieUpdates) (T : TrieTables K S) :
    ∃ c T', (writeTrieUpdatesWith R A u : Tx ε (TrieTables K S) ℕ).Yields T
        (u.accountEntries A T+u.storageEntries) c T' ∧ T'.row = (u.patch A).apply T.row :=
  writeSorted_yields R A (R.intoSorted_spec u) T

omit A in
theorem writeTrieUpdates_yields (settings : Option (List UInt8)) (u : TrieUpdates)
    (T : TrieTables K S) :
    ∃ c T', (writeTrieUpdates R settings u : Tx ε (TrieTables K S) ℕ).Yields T
        (u.accountEntries (R.adapter (R.usesPackedTrieKeys settings)) T+u.storageEntries) c T' ∧
      T'.row = (u.patch (R.adapter (R.usesPackedTrieKeys settings))).apply T.row := by
  obtain ⟨c,T',hy,hr⟩ := writeTrieUpdatesWith_yields (ε := ε) R
    (R.adapter (R.usesPackedTrieKeys settings)) u T
  exact ⟨_,T',((Tx.yields_touch T).bind hy).transact,hr⟩

end Whole
end TrieRebuild
