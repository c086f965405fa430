import TrieRebuild.Trie.Updates

/-! `TrieUpdatesSink`: nodes collected into sixteen locked shards, picked by the first nibble of
the account or of the path, and merged at the end. -/
namespace TrieRebuild
open Foundation

/-- One shard and its lock, which a panic under it poisons. -/
structure Shard where
  updates : TrieUpdates := {}
  poisoned : Bool := false

structure TrieUpdatesSink where
  shards : Fin 16 → Shard := fun _ => {}

/-- The panics of `on_branch_node`: no first nibble, no such shard, a lock poisoned by an earlier
panic, and the debug assertion. -/
inductive SinkPanic
  | emptyPath
  | indexOutOfBounds
  | poisonedLock
  | emittedTwice (hashedAddress : Option B256) (path : Nibbles)

namespace TrieUpdatesSink

/-- The shard a node goes to: its account's first nibble, or its path's. -/
def shardIndex (n : Node) : Option UInt8 :=
  match n.hashedAddress with
  | some hashedAddress => some (hashedAddress.firstByte >>> 4)
  | none => n.path.first.map fun nibble : Fin 16 => UInt8.ofNat nibble.val

def setShard (s : TrieUpdatesSink) (i : Fin 16) (shard : Shard) : TrieUpdatesSink :=
  ⟨Function.update s.shards i shard⟩

@[simp] theorem shards_setShard (s : TrieUpdatesSink) (i j : Fin 16) (shard : Shard) :
    (s.setShard i shard).shards j = if j = i then shard else s.shards j :=
  Function.update_apply ..

/-- One call, under the lock of its shard. -/
def onBranchNode (debugAssertions : Bool) (s : TrieUpdatesSink) (n : Node) :
    Option SinkPanic × TrieUpdatesSink :=
  match shardIndex n with
  | none => (some .emptyPath,s)
  | some shard =>
    if h : shard.toNat < 16 then
      let locked := s.shards ⟨shard.toNat,h⟩
      if locked.poisoned then (some .poisonedLock,s)
      else
        let (prev,updates) := locked.updates.insert n
        if debugAssertions && prev.isSome then
          (some (.emittedTwice n.hashedAddress n.path),
            s.setShard ⟨shard.toNat,h⟩ { updates := updates, poisoned := true })
        else (none,s.setShard ⟨shard.toNat,h⟩ { updates := updates })
    else (some .indexOutOfBounds,s)

/-- A stream of calls, up to the first that panics. -/
def feed (debugAssertions : Bool) (s : TrieUpdatesSink) : List Node → Option SinkPanic × TrieUpdatesSink
  | [] => (none,s)
  | n::ns =>
    match onBranchNode debugAssertions s n with
    | (none,s) => feed debugAssertions s ns
    | (some p,s) => (some p,s)

/-- One shard taken out of its lock and merged, if the lock is not poisoned. -/
def mergeShard (s : TrieUpdatesSink) (u : TrieUpdates) (i : Fin 16) : Option TrieUpdates :=
  if (s.shards i).poisoned then none
  else some { u with
    accountNodes := FiniteMap.extend u.accountNodes (s.shards i).updates.accountNodes
    storageTries := FiniteMap.extend u.storageTries (s.shards i).updates.storageTries }

/-- The shards merged by plain insertion; none if a lock is poisoned. -/
def intoTrieUpdates (s : TrieUpdatesSink) : Option TrieUpdates :=
  (List.finRange 16).foldlM s.mergeShard {}

/-- The shard of a key. -/
def homeOf (k : NodeKey) : Fin 16 :=
  match k.1 with
  | some hashedAddress => firstNibble hashedAddress
  | none => k.2.first.getD 0

/-- A picked shard exists, and is the one of the node's key. -/
theorem shardIndex_eq {n : Node} {shard : UInt8} (h : shardIndex n = some shard) :
    shard.toNat = homeOf n.key := by
  obtain ⟨a,p,b⟩ := n
  cases a with
  | some a =>
    obtain rfl := Option.some.inj h
    simp [homeOf,Node.key,firstNibble,Nat.shiftRight_eq_div_pow]
  | none =>
    obtain ⟨nibble,hp,rfl⟩ := Option.map_eq_some_iff.mp h
    have hlt : nibble.val < 256 := by omega
    simp [homeOf,Node.key,hp,Nat.mod_eq_of_lt hlt]

theorem shardIndex_isSome_iff (n : Node) :
    (shardIndex n).isSome ↔ (n.hashedAddress = none → n.path.isEmpty = false) := by
  obtain ⟨a,p,b⟩ := n
  cases a with
  | some a => simp [shardIndex]
  | none =>
    have hp := p.first_eq_none_iff
    cases hf : p.first <;> simp_all [shardIndex]

/-- The shards hold a stream's nodes, each collected in its key's shard. -/
def Holds (s : TrieUpdatesSink) (ns : List Node) : Prop :=
  ∀ i, s.shards i = { updates := .collect (ns.filter fun n => homeOf n.key = i) }

theorem holds_nil : Holds {} [] := fun _ => rfl

/-- One call that does not panic. -/
theorem Holds.push {s : TrieUpdatesSink} {ns : List Node} (h : Holds s ns) {n : Node}
    {debugAssertions : Bool} (hi : (shardIndex n).isSome)
    (hn : debugAssertions = true → n.key ∉ ns.map Node.key) :
    ∃ s', onBranchNode debugAssertions s n = (none,s') ∧ Holds s' (ns ++ [n]) := by
  obtain ⟨shard,hs⟩ := Option.isSome_iff_exists.mp hi
  have hshard := shardIndex_eq hs
  have hlt : shard.toNat < 16 := hshard ▸ (homeOf n.key).isLt
  have hhome : (⟨shard.toNat,hlt⟩ : Fin 16) = homeOf n.key := Fin.ext hshard
  have hprev : (debugAssertions &&
      ((TrieUpdates.collect (ns.filter fun m => homeOf m.key = homeOf n.key)).insert n).1.isSome) =
        false := by
    cases hd : debugAssertions with
    | false => rfl
    | true =>
      rw [TrieUpdates.insert_fst,TrieUpdates.get_collect,(latest_eq_none_iff _ _).mpr]
      · rfl
      · intro hm
        rw [Node.map_fst_binding] at hm
        exact hn hd ((List.filter_sublist.map _).subset hm)
  refine ⟨s.setShard (homeOf n.key) {
    updates := ((TrieUpdates.collect (ns.filter fun m => homeOf m.key = homeOf n.key)).insert n).2 },
    ?_,fun i => ?_⟩
  · rw [onBranchNode,hs]
    dsimp only
    rw [dif_pos hlt,hhome,h]
    dsimp only
    rw [if_neg Bool.false_ne_true,hprev,if_neg Bool.false_ne_true]
  · by_cases hhi : i = homeOf n.key
    · subst hhi
      rw [shards_setShard,if_pos rfl,List.filter_append,List.filter_singleton,
        decide_eq_true rfl,cond_true,TrieUpdates.collect_concat]
    · rw [shards_setShard,if_neg hhi,h,List.filter_append,List.filter_singleton,
        decide_eq_false (Ne.symm hhi),cond_false,List.append_nil]

/-- A call whose key is already held fails the debug assertion. -/
theorem Holds.push_repeated {s : TrieUpdatesSink} {ns : List Node} (h : Holds s ns) {n : Node}
    (hi : (shardIndex n).isSome) (hn : n.key ∈ ns.map Node.key) :
    (onBranchNode true s n).1 = some (.emittedTwice n.hashedAddress n.path) := by
  obtain ⟨shard,hs⟩ := Option.isSome_iff_exists.mp hi
  have hshard := shardIndex_eq hs
  have hlt : shard.toNat < 16 := hshard ▸ (homeOf n.key).isLt
  have hhome : (⟨shard.toNat,hlt⟩ : Fin 16) = homeOf n.key := Fin.ext hshard
  have hprev : (true && ((TrieUpdates.collect (ns.filter fun m => homeOf m.key =
      homeOf n.key)).insert n).1.isSome) = true := by
    rw [TrieUpdates.insert_fst,TrieUpdates.get_collect,Bool.true_and,Option.isSome_iff_ne_none,Ne,
      latest_eq_none_iff,not_not,Node.map_fst_binding]
    obtain ⟨m,hm,he⟩ := List.mem_map.mp hn
    exact List.mem_map.mpr ⟨m,List.mem_filter.mpr ⟨hm,by simp [he]⟩,he⟩
  rw [onBranchNode,hs]
  dsimp only
  rw [dif_pos hlt,hhome,h]
  dsimp only
  rw [if_neg Bool.false_ne_true,hprev,if_pos rfl]

/-- A stream of nodes with a shard, without repetition if that is asserted, is held. -/
theorem feed_holds {debugAssertions : Bool} {ns : List Node}
    (hi : ∀ n ∈ ns, (shardIndex n).isSome)
    (hn : debugAssertions = true → (ns.map Node.key).Nodup) :
    ∃ s, feed debugAssertions {} ns = (none,s) ∧ Holds s ns := by
  suffices h : ∀ rest done s, done ++ rest = ns → Holds s done →
      ∃ s', feed debugAssertions s rest = (none,s') ∧ Holds s' ns by
    exact h ns [] {} rfl holds_nil
  intro rest
  induction rest with
  | nil =>
    intro done s hd hs
    rw [List.append_nil] at hd
    exact ⟨s,rfl,hd ▸ hs⟩
  | cons n rest ih =>
    intro done s hd hs
    have hnew : debugAssertions = true → n.key ∉ done.map Node.key := by
      intro ha hm
      have hk := hn ha
      rw [← hd,List.map_append] at hk
      exact List.disjoint_of_nodup_append hk hm List.mem_cons_self
    obtain ⟨s₁,h₁,hs₁⟩ := hs.push (hi n (hd ▸ List.mem_append_right _ List.mem_cons_self)) hnew
    obtain ⟨s₂,h₂,hs₂⟩ := ih (done ++ [n]) s₁ (by rw [List.append_assoc]; exact hd) hs₁
    refine ⟨s₂,?_,hs₂⟩
    rw [feed,h₁]
    exact h₂

end TrieUpdatesSink

namespace TrieUpdates

theorem lookup_storageTries_insert (u : TrieUpdates) (n : Node) (a : B256) :
    (u.insert n).2.storageTries.lookup a =
      if n.hashedAddress = some a then
        let trie := (u.storageTries.lookup a).getD {}
        some { trie with storageNodes := trie.storageNodes.insert n.path n.node }
      else u.storageTries.lookup a := by
  obtain ⟨b,p,node⟩ := n
  cases b with
  | none => simp [insert]
  | some b =>
    by_cases hb : b = a
    · subst hb
      simp [insert]
    · simp [insert,hb,Ne.symm hb]

/-- The trie of an account depends on the nodes of that account alone. -/
theorem lookup_collect_filter {q : Node → Bool} {a : B256}
    (hq : ∀ n, n.hashedAddress = some a → q n = true) (ns : List Node) :
    (collect (ns.filter q)).storageTries.lookup a = (collect ns).storageTries.lookup a := by
  induction ns using List.reverseRecOn with
  | nil => rfl
  | append_singleton ns n ih =>
    rw [List.filter_append,List.filter_singleton,collect_concat,lookup_storageTries_insert,← ih]
    cases hn : q n with
    | true => rw [cond_true,collect_concat,lookup_storageTries_insert]
    | false =>
      have ha : n.hashedAddress ≠ some a := fun ha => by simp [hq n ha] at hn
      rw [if_neg ha,cond_false,List.append_nil]

theorem lookup_collect_eq_none {a : B256} {ns : List Node}
    (h : ∀ n ∈ ns, n.hashedAddress ≠ some a) : (collect ns).storageTries.lookup a = none := by
  have hf : ns.filter (fun n => decide (n.hashedAddress = some a)) = [] := by
    apply List.filter_eq_nil_iff.mpr
    intro n hn
    simpa using h n hn
  rw [← lookup_collect_filter (q := fun n => decide (n.hashedAddress = some a))
    (fun n hn => decide_eq_true hn) ns,hf,
    collect_nil]
  rfl

end TrieUpdates

namespace TrieUpdatesSink

/-- Merging intact shards extends both maps shard by shard. -/
theorem foldlM_mergeShard {s : TrieUpdatesSink} (h : ∀ i, (s.shards i).poisoned = false)
    (is : List (Fin 16)) (u : TrieUpdates) :
    is.foldlM s.mergeShard u = some { u with
      accountNodes := is.foldl (fun m i => FiniteMap.extend m (s.shards i).updates.accountNodes)
        u.accountNodes
      storageTries := is.foldl (fun m i => FiniteMap.extend m (s.shards i).updates.storageTries)
        u.storageTries } := by
  induction is generalizing u with
  | nil => rfl
  | cons i is ih =>
    have hi : s.mergeShard u i = some { u with
        accountNodes := FiniteMap.extend u.accountNodes (s.shards i).updates.accountNodes
        storageTries := FiniteMap.extend u.storageTries (s.shards i).updates.storageTries } := by
      rw [mergeShard,h,if_neg Bool.false_ne_true]
    rw [List.foldlM_cons,hi]
    exact ih _

/-- The merged shards are the updates one unsharded map collects. -/
theorem Holds.intoTrieUpdates_eq {s : TrieUpdatesSink} {ns : List Node} (h : Holds s ns) :
    s.intoTrieUpdates = some (.collect ns) := by
  have haccount : ∀ i p, (s.shards i).updates.accountNodes.lookup p =
      if homeOf (none,p) = i then (TrieUpdates.collect ns).accountNodes.lookup p else none := by
    intro i p
    have hf : (ns.filter fun n => homeOf n.key = i).map Node.binding =
        (ns.map Node.binding).filter fun b => decide (homeOf b.1 = i) := by
      rw [List.filter_map]
      rfl
    rw [h,← TrieUpdates.get_none,← TrieUpdates.get_none,TrieUpdates.get_collect,
      TrieUpdates.get_collect,hf,latest_filter fun k => decide (homeOf k = i)]
    simp only [decide_eq_true_eq]
  have hstorage : ∀ i a, (s.shards i).updates.storageTries.lookup a =
      if firstNibble a = i then (TrieUpdates.collect ns).storageTries.lookup a else none := by
    intro i a
    rw [h]
    split_ifs with ha
    · apply TrieUpdates.lookup_collect_filter
      intro n hn
      simp [homeOf,Node.key,hn,ha]
    · apply TrieUpdates.lookup_collect_eq_none
      intro n hn hna
      have hhome := (List.mem_filter.mp hn).2
      simp [homeOf,Node.key,hna,ha] at hhome
  rw [intoTrieUpdates,foldlM_mergeShard fun i => by rw [h]]
  congr 1
  have hacc : (List.finRange 16).foldl
      (fun m i => FiniteMap.extend m (s.shards i).updates.accountNodes) ∅ =
        (TrieUpdates.collect ns).accountNodes := by
    apply Finmap.ext_lookup
    intro p
    rw [FiniteMap.lookup_foldl_extend (fun i => (s.shards i).updates.accountNodes)
      (j := homeOf (none,p)) fun i hi => by rw [haccount,if_neg (Ne.symm hi)],
      if_pos (List.mem_finRange _),haccount,if_pos rfl,Finmap.lookup_empty,Option.or_none]
  have hsto : (List.finRange 16).foldl
      (fun m i => FiniteMap.extend m (s.shards i).updates.storageTries) ∅ =
        (TrieUpdates.collect ns).storageTries := by
    apply Finmap.ext_lookup
    intro a
    rw [FiniteMap.lookup_foldl_extend (fun i => (s.shards i).updates.storageTries)
      (j := firstNibble a) fun i hi => by rw [hstorage,if_neg (Ne.symm hi)],
      if_pos (List.mem_finRange _),hstorage,if_pos rfl,Finmap.lookup_empty,Option.or_none]
  rw [hacc,hsto]
  have hr := (TrieUpdates.plain_collect ns).removedNodes
  cases hu : TrieUpdates.collect ns
  rw [hu] at hr
  rw [← show _ = ∅ from hr]

end TrieUpdatesSink
end TrieRebuild
