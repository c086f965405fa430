import TrieRebuild.Foundation.Draining
import TrieRebuild.Foundation.Threads
import TrieRebuild.Digest.TableScan

/-! `digest_tables` over cursors that may fail. The sixteen scans are tasks of a parallel
`try_reduce`, and a task that has not begun is left out once another has failed. A digest is
returned only if every row was read: the run then is one of cursors that do not fail. -/
namespace TrieRebuild
open Foundation

/-- What a cursor hands out: all its rows, or as many as it does before a call fails. -/
def reading {α ε : Type} (rows : List α) (fault : Option (ℕ × ε)) : List α × Option ε :=
  match fault with
  | none => (rows,none)
  | some (i,e) => if i ≤ rows.length then (rows.take i,some e) else (rows,none)

/-- The rows behind a failing call. -/
def unread {α ε : Type} (rows : List α) (fault : Option (ℕ × ε)) : List α :=
  match fault with
  | none => []
  | some (i,_) => rows.drop i

section Reading
variable {α ε : Type} (rows : List α) (fault : Option (ℕ × ε))

theorem reading_append_unread : (reading rows fault).1 ++ unread rows fault = rows := by
  cases fault with
  | none => exact List.append_nil rows
  | some f =>
    by_cases h : f.1 ≤ rows.length
    · simp [reading,unread,h]
    · simp [reading,unread,h,List.drop_of_length_le (Nat.le_of_not_le h)]

/-- Without a failing call nothing is left unread. -/
theorem unread_of_reading {rows : List α} {fault : Option (ℕ × ε)}
    (h : (reading rows fault).2 = none) : unread rows fault = [] := by
  cases fault with
  | none => rfl
  | some f =>
    by_cases hle : f.1 ≤ rows.length
    · simp [reading,hle] at h
    · exact List.drop_of_length_le (Nat.le_of_not_le hle)

end Reading

/-- `try_reduce` over the results of a part of the tasks. Of two errors the left one is kept. -/
inductive TryReduces {ε : Type} : List (Except ε UInt64) → Except ε UInt64 → Prop
  | identity : TryReduces [] (.ok 0)
  | single (result : Except ε UInt64) : TryReduces [result] result
  | split {l m : List (Except ε UInt64)} {a b : Except ε UInt64} (hl : TryReduces l a)
      (hm : TryReduces m b) :
      TryReduces (l ++ m) (do
        let a ← a
        let b ← b
        pure (a+b))

/-- A sum comes from counts alone. -/
theorem TryReduces.of_ok {ε : Type} {l : List (Except ε UInt64)} {result : Except ε UInt64}
    (h : TryReduces l result) {s : UInt64} (hs : result = .ok s) :
    ∃ counts, l = counts.map .ok ∧ Reduces counts s := by
  induction h generalizing s with
  | identity =>
    cases hs
    exact ⟨[],rfl,.identity⟩
  | single result =>
    subst hs
    exact ⟨[s],rfl,.single s⟩
  | @split l m a b hl hm ihl ihm =>
    cases a with
    | error e => cases hs
    | ok x =>
      cases b with
      | error e => cases hs
      | ok y =>
        cases hs
        obtain ⟨k,rfl,hk⟩ := ihl rfl
        obtain ⟨n,rfl,hn⟩ := ihm rfl
        exact ⟨k ++ n,by rw [List.map_append],.split hk hn⟩

/-- An error is one of the tasks'. -/
theorem TryReduces.of_error {ε : Type} {l : List (Except ε UInt64)} {result : Except ε UInt64}
    (h : TryReduces l result) {e : ε} (he : result = .error e) : .error e ∈ l := by
  induction h generalizing e with
  | identity => cases he
  | single result => rw [he]; exact List.mem_cons_self
  | @split l m a b hl hm ihl ihm =>
    cases a with
    | error e' =>
      cases he
      exact List.mem_append_left _ (ihl rfl)
    | ok x =>
      cases b with
      | error e' =>
        cases he
        exact List.mem_append_right _ (ihm rfl)
      | ok y => cases he

theorem exists_tryReduces {ε : Type} (l : List (Except ε UInt64)) : ∃ r, TryReduces l r := by
  induction l with
  | nil => exact ⟨_,.identity⟩
  | cons result l ih =>
    obtain ⟨r,hr⟩ := ih
    exact ⟨_,.split (.single result) hr⟩

variable {ε K S : Type}

/-- The digest the tasks share, and whether one has failed. -/
structure ScanShared (S : Type) where
  digest : NodeDigest
  folded : List ((B256 × S) × BranchNodeCompact) := []
  full : Bool := false

/-- One range: its task has not begun, scans, or is through. -/
inductive ScanTask (ε S : Type)
  | waiting
  | scanning (scan : RangeScan S)
  | finished (result : Except ε UInt64)

section Model
variable (hashOne : UInt64 → List UInt8 → UInt64) (P : NibblePacking) (A : TrieTableAdapter K S)
variable {R : TableRows K S} (C : TableCursors R) (faults : Fin 16 → Option (ℕ × ε))

/-- What the cursor over a range hands out. -/
def rangeReading (nibble : Fin 16) : List ((B256 × S) × BranchNodeCompact) × Option ε :=
  reading (C.walkRange (rangeLow nibble) (rangeHigh nibble)) (faults nibble)

/-- One move of a task. -/
inductive TaskMove (nibble : Fin 16) :
    ScanShared S → ScanTask ε S → ScanShared S → ScanTask ε S → Prop
  | start (s) : TaskMove nibble s .waiting s (.scanning ⟨(rangeReading C faults nibble).1,0⟩)
  | skip (s) (h : s.full = true) : TaskMove nibble s .waiting s (.finished (.ok 0))
  | entry (s) (r : (B256 × S) × BranchNodeCompact) (rest : List ((B256 × S) × BranchNodeCompact))
      (count : UInt64) :
      TaskMove nibble s (.scanning ⟨r::rest,count⟩)
        { s with
          digest := NodeDigest.push hashOne P s.digest (storageNode A r)
          folded := s.folded ++ [r] }
        (.scanning ⟨rest,count+1⟩)
  | done (s) (count : UInt64) (h : (rangeReading C faults nibble).2 = none) :
      TaskMove nibble s (.scanning ⟨[],count⟩) s (.finished (.ok count))
  | fail (s) (count : UInt64) (e : ε) (h : (rangeReading C faults nibble).2 = some e) :
      TaskMove nibble s (.scanning ⟨[],count⟩) { s with full := true } (.finished (.error e))

/-- The tasks over one digest. -/
abbrev Tasks (ε S : Type) := Threads (Fin 16) (ScanShared S) (ScanTask ε S)

def TaskStep (σ σ' : Tasks ε S) : Prop :=
  ∃ nibble, Threads.Step (TaskMove hashOne P A C faults nibble) nibble σ σ'

/-- The tasks before any has begun. -/
def taskStart (digest : NodeDigest) : Tasks ε S := ⟨{ digest },fun _ => .waiting⟩

/-- A possible outcome of `digest_tables` on cursors that may fail. -/
inductive TryDigestTables (fault : Option (ℕ × ε)) : Except ε TrieTablesDigest → Prop
  | walkFails (e : ε) (h : (reading C.walk fault).2 = some e) : TryDigestTables fault (.error e)
  | scanned (h : (reading C.walk fault).2 = none) (σ : Tasks ε S)
      (hrun : Relation.ReflTransGen (TaskStep hashOne P A C faults)
        (taskStart (walkAccounts hashOne P A C.walk).1) σ)
      (results : Fin 16 → Except ε UInt64)
      (hdone : ∀ nibble, σ.locals nibble = .finished (results nibble))
      (storageNodes : Except ε UInt64)
      (hreduce : TryReduces ((List.finRange 16).map results) storageNodes) :
      TryDigestTables fault (storageNodes.map fun storageNodes =>
        ⟨(walkAccounts hashOne P A C.walk).2,storageNodes,σ.shared.digest.snapshot⟩)

end Model

section Run
variable {hashOne : UInt64 → List UInt8 → UInt64} {P : NibblePacking} {A : TrieTableAdapter K S}
variable {R : TableRows K S} {C : TableCursors R} {faults : Fin 16 → Option (ℕ × ε)}

/-- A task against the same range scanned without faults. -/
def ScanTask.Matches (C : TableCursors R) (faults : Fin 16 → Option (ℕ × ε)) (nibble : Fin 16) :
    ScanTask ε S → RangeScan S → Prop
  | waiting,scan => scan = ⟨C.walkRange (rangeLow nibble) (rangeHigh nibble),0⟩
  | scanning s,scan => scan =
      ⟨s.rest ++ unread (C.walkRange (rangeLow nibble) (rangeHigh nibble)) (faults nibble),s.count⟩
  | finished (.ok count),scan => scan = ⟨[],count⟩ ∧ (rangeReading C faults nibble).2 = none
  | finished (.error _),_ => False

/-- As long as no task has failed, the tasks are where scans without faults can be. -/
structure Unfailed (hashOne : UInt64 → List UInt8 → UInt64) (P : NibblePacking)
    (A : TrieTableAdapter K S) (C : TableCursors R) (faults : Fin 16 → Option (ℕ × ε))
    (d : NodeDigest) (σ : Tasks ε S) (τ : ScanState S) : Prop where
  run : Relation.ReflTransGen (ScanStep hashOne P A) (scanStart C d) τ
  digest : σ.shared.digest = τ.digest
  notFull : σ.shared.full = false
  tasks : ∀ nibble, (σ.locals nibble).Matches C faults nibble (τ.scans nibble)

/-- A failed task is there to be reduced. -/
def Failed (σ : Tasks ε S) : Prop := ∃ nibble e, σ.locals nibble = .finished (.error e)

theorem Failed.step {σ σ' : Tasks ε S} (h : Failed σ) (hs : TaskStep hashOne P A C faults σ σ') :
    Failed σ' := by
  obtain ⟨nibble,e,he⟩ := h
  obtain ⟨n,hs⟩ := hs
  by_cases hn : nibble = n
  · subst hn
    have hm := hs.moves
    rw [he] at hm
    cases hm
  · exact ⟨nibble,e,by rw [hs.frame hn]; exact he⟩

/-- A move without a failure is a step of the scans without faults, or none. -/
theorem Unfailed.step {d : NodeDigest} {σ σ' : Tasks ε S} {τ : ScanState S}
    (h : Unfailed hashOne P A C faults d σ τ) (hs : TaskStep hashOne P A C faults σ σ') :
    Failed σ' ∨ ∃ τ', Unfailed hashOne P A C faults d σ' τ' := by
  obtain ⟨nibble,hs⟩ := hs
  have hframe := fun n (hn : n ≠ nibble) => hs.frame hn
  have hm := hs.moves
  have hmatch := h.tasks nibble
  -- a task that changes while the scans stay where they are
  have hstay : σ'.shared = σ.shared → (σ'.locals nibble).Matches C faults nibble (τ.scans nibble) →
      ∃ τ', Unfailed hashOne P A C faults d σ' τ' := by
    intro hshared hnew
    refine ⟨τ,h.run,by rw [hshared]; exact h.digest,by rw [hshared]; exact h.notFull,fun n => ?_⟩
    by_cases hn : n = nibble
    · rw [hn]
      exact hnew
    · rw [hframe n hn]
      exact h.tasks n
  generalize hl : σ.locals nibble = l,hl' : σ'.locals nibble = l',hsh : σ'.shared = s' at *
  cases hm with
  | start =>
    refine .inr (hstay rfl ?_)
    rw [ScanTask.Matches] at hmatch
    change τ.scans nibble = ⟨(rangeReading C faults nibble).1 ++ unread _ (faults nibble),0⟩
    rw [hmatch,rangeReading,reading_append_unread]
  | skip hfull => rw [h.notFull] at hfull; cases hfull
  | entry r rest count =>
    rw [ScanTask.Matches] at hmatch
    have hrest : (τ.scans nibble).rest = r::(rest ++
        unread (C.walkRange (rangeLow nibble) (rangeHigh nibble)) (faults nibble)) := by
      rw [hmatch]
      rfl
    refine .inr ⟨_,h.run.tail (.entry τ nibble r _ hrest),?_,?_,fun n => ?_⟩
    · rw [hsh]
      dsimp only
      rw [h.digest]
    · rw [hsh]
      exact h.notFull
    · dsimp only
      by_cases hn : n = nibble
      · subst hn
        rw [Function.update_self,hl',ScanTask.Matches,hmatch]
      · rw [Function.update_of_ne hn,hframe n hn]
        exact h.tasks n
  | done count hend =>
    refine .inr (hstay rfl ?_)
    rw [ScanTask.Matches] at hmatch
    refine ⟨?_,hend⟩
    rw [hmatch,unread_of_reading hend]
    rfl
  | fail count e he => exact .inl ⟨nibble,e,hl'⟩

/-- Either a task has failed, or the scans without faults have a run to the same digest. -/
theorem unfailed_of_run {d : NodeDigest} {σ : Tasks ε S}
    (h : Relation.ReflTransGen (TaskStep hashOne P A C faults) (taskStart d) σ) :
    Failed σ ∨ ∃ τ, Unfailed hashOne P A C faults d σ τ := by
  induction h with
  | refl => exact .inr ⟨scanStart C d,.refl,rfl,rfl,fun _ => rfl⟩
  | tail _ hs ih =>
    rcases ih with hf | ⟨τ,hu⟩
    · exact .inl (hf.step hs)
    · exact hu.step hs

/-- A failed task has the error of its cursor. -/
theorem error_of_run {d : NodeDigest} {σ : Tasks ε S}
    (h : Relation.ReflTransGen (TaskStep hashOne P A C faults) (taskStart d) σ) {nibble : Fin 16}
    {e : ε} (he : σ.locals nibble = .finished (.error e)) :
    (rangeReading C faults nibble).2 = some e := by
  induction h with
  | refl => cases he
  | @tail σ₁ σ₂ _ hs ih =>
    obtain ⟨n,hs⟩ := hs
    by_cases hn : nibble = n
    · subst hn
      have hm := hs.moves
      rw [he] at hm
      generalize σ₁.locals nibble = l,σ₂.shared = s' at hm
      cases hm with
      | fail count _ hfail => exact hfail
    · rw [hs.frame hn] at he
      exact ih he

/-- Steps a task still has to make. -/
def ScanTask.rank (rows : ℕ) : ScanTask ε S → ℕ
  | waiting => rows+2
  | scanning scan => scan.rest.length+1
  | finished _ => 0

theorem length_reading_le {α : Type} (rows : List α) (fault : Option (ℕ × ε)) :
    (reading rows fault).1.length ≤ rows.length := by
  have h := congrArg List.length (reading_append_unread rows fault)
  rw [List.length_append] at h
  omega

/-- The tasks never block: they all get through. -/
theorem exists_finished_tasks (hashOne : UInt64 → List UInt8 → UInt64) (P : NibblePacking)
    (A : TrieTableAdapter K S) (C : TableCursors R) (faults : Fin 16 → Option (ℕ × ε))
    (σ : Tasks ε S) :
    ∃ σ', Relation.ReflTransGen (TaskStep hashOne P A C faults) σ σ' ∧
      ∀ nibble, ∃ result, σ'.locals nibble = .finished result := by
  let rows : Fin 16 → ℕ := fun n => (C.walkRange (rangeLow n) (rangeHigh n)).length
  have hdrains : Drains (TaskStep hashOne P A C faults) (fun _ => True)
      (fun σ : Tasks ε S => ∀ nibble, ∃ result, σ.locals nibble = .finished result)
      (fun σ => ∑ n, (σ.locals n).rank (rows n)) := by
    refine ⟨fun _ _ => trivial,?_,?_⟩
    · rintro σ σ' - ⟨nibble,hs⟩
      apply Finset.sum_lt_sum
      · intro n _
        by_cases hn : n = nibble
        · subst hn
          have hm := hs.moves
          generalize σ.locals n = l,σ'.locals n = l',σ.shared = s,σ'.shared = s' at hm
          cases hm with
          | start =>
            have hle : (rangeReading C faults n).1.length ≤ rows n := length_reading_le _ _
            simp only [ScanTask.rank]
            omega
          | _ => simp [ScanTask.rank]
        · rw [hs.frame hn]
      · refine ⟨nibble,Finset.mem_univ _,?_⟩
        have hm := hs.moves
        generalize σ.locals nibble = l,σ'.locals nibble = l',σ.shared = s,σ'.shared = s' at hm
        cases hm with
        | start =>
          have hle : (rangeReading C faults nibble).1.length ≤ rows nibble := length_reading_le _ _
          simp only [ScanTask.rank]
          omega
        | _ => simp [ScanTask.rank]
    · intro σ _ hnot
      push Not at hnot
      obtain ⟨nibble,hn⟩ := hnot
      have hstep : ∀ s l, TaskMove hashOne P A C faults nibble σ.shared (σ.locals nibble) s l →
          ∃ σ', TaskStep hashOne P A C faults σ σ' := fun s l hm => ⟨_,nibble,.move σ s l hm⟩
      cases hl : σ.locals nibble with
      | waiting => exact hstep _ _ (by rw [hl]; exact .start _)
      | finished result => exact absurd hl (hn result)
      | scanning scan =>
        obtain ⟨rest,count⟩ := scan
        cases rest with
        | cons r rest => exact hstep _ _ (by rw [hl]; exact .entry _ r rest count)
        | nil =>
          cases he : (rangeReading C faults nibble).2 with
          | none => exact hstep _ _ (by rw [hl]; exact .done _ count he)
          | some e => exact hstep _ _ (by rw [hl]; exact .fail _ count e he)
  obtain ⟨_,σ',hr,hdone⟩ := hdrains.exists_done (s := σ) trivial
  exact ⟨σ',hr.reaches,hdone⟩

/-- `digest_tables` always comes to a result. -/
theorem exists_tryDigestTables (hashOne : UInt64 → List UInt8 → UInt64) (P : NibblePacking)
    (A : TrieTableAdapter K S) (C : TableCursors R) (faults : Fin 16 → Option (ℕ × ε))
    (fault : Option (ℕ × ε)) : ∃ result, TryDigestTables hashOne P A C faults fault result := by
  cases h : (reading C.walk fault).2 with
  | some e => exact ⟨_,.walkFails e h⟩
  | none =>
    obtain ⟨σ,hrun,hdone⟩ := exists_finished_tasks hashOne P A C faults
      (taskStart (walkAccounts hashOne P A C.walk).1)
    choose results hresults using hdone
    obtain ⟨r,hr⟩ := exists_tryReduces ((List.finRange 16).map results)
    exact ⟨_,.scanned h σ hrun results hresults r hr⟩

/-- Tasks none of which has failed have scanned as cursors that do not fail would. -/
theorem scanned_of_counts {d : NodeDigest} {σ : Tasks ε S} {counts : List UInt64} {s : UInt64}
    (hrun : Relation.ReflTransGen (TaskStep hashOne P A C faults) (taskStart d) σ)
    {results : Fin 16 → Except ε UInt64} (hdone : ∀ nibble, σ.locals nibble = .finished (results nibble))
    (hcounts : (List.finRange 16).map results = counts.map .ok) (hreduces : Reduces counts s) :
    (∀ nibble, (rangeReading C faults nibble).2 = none) ∧
      ∃ τ : ScanState S, Relation.ReflTransGen (ScanStep hashOne P A) (scanStart C d) τ ∧
        (∀ nibble, (τ.scans nibble).rest = []) ∧ σ.shared.digest = τ.digest ∧
        Reduces ((List.finRange 16).map fun nibble => (τ.scans nibble).count) s := by
  have hresult : ∀ nibble, ∃ count, results nibble = .ok count := by
    intro nibble
    have hm : results nibble ∈ counts.map Except.ok :=
      hcounts ▸ List.mem_map_of_mem (List.mem_finRange nibble)
    obtain ⟨count,-,hc⟩ := List.mem_map.mp hm
    exact ⟨count,hc.symm⟩
  rcases unfailed_of_run hrun with ⟨nibble,e,he⟩ | ⟨τ,hτ⟩
  · obtain ⟨count,hc⟩ := hresult nibble
    rw [hdone nibble,hc] at he
    cases he
  · have hscan : ∀ nibble, (τ.scans nibble).rest = [] ∧
        results nibble = .ok (τ.scans nibble).count ∧ (rangeReading C faults nibble).2 = none := by
      intro nibble
      obtain ⟨count,hc⟩ := hresult nibble
      have hm := hτ.tasks nibble
      rw [hdone nibble,hc,ScanTask.Matches] at hm
      rw [hm.1]
      exact ⟨rfl,hc,hm.2⟩
    have hsame : counts = (List.finRange 16).map fun nibble => (τ.scans nibble).count := by
      apply List.map_injective_iff.mpr (fun a b => Except.ok.inj)
      rw [← hcounts,List.map_map]
      exact List.map_congr_left fun nibble _ => (hscan nibble).2.1
    exact ⟨fun nibble => (hscan nibble).2.2,τ,hτ.run,fun nibble => (hscan nibble).1,hτ.digest,
      hsame ▸ hreduces⟩

/-- A digest that is returned is one of all rows. -/
theorem TryDigestTables.of_ok {fault : Option (ℕ × ε)} {result : Except ε TrieTablesDigest}
    (h : TryDigestTables hashOne P A C faults fault result) {r : TrieTablesDigest}
    (hr : result = .ok r) :
    (reading C.walk fault).2 = none ∧ (∀ nibble, (rangeReading C faults nibble).2 = none) ∧
      DigestTables hashOne P A R r := by
  cases h with
  | walkFails e h => cases hr
  | scanned hwalk σ hrun results hdone storageNodes hreduce =>
    cases storageNodes with
    | error e => cases hr
    | ok s =>
      obtain ⟨counts,hcounts,hreduces⟩ := hreduce.of_ok rfl
      obtain ⟨hnone,τ,hτ,hrest,hdigest,hsum⟩ := scanned_of_counts hrun hdone hcounts hreduces
      have hr' : (⟨(walkAccounts hashOne P A C.walk).2,s,σ.shared.digest.snapshot⟩ :
          TrieTablesDigest) = r := Except.ok.inj hr
      rw [← hr',hdigest]
      exact ⟨hwalk,hnone,.intro C τ s hτ hrest hsum⟩

/-- An error that is returned is that of a failing call. -/
theorem TryDigestTables.of_error {fault : Option (ℕ × ε)} {result : Except ε TrieTablesDigest}
    (h : TryDigestTables hashOne P A C faults fault result) {e : ε} (hr : result = .error e) :
    (reading C.walk fault).2 = some e ∨ ∃ nibble, (rangeReading C faults nibble).2 = some e := by
  cases h with
  | walkFails e' h =>
    cases hr
    exact .inl h
  | scanned hwalk σ hrun results hdone storageNodes hreduce =>
    cases storageNodes with
    | ok s => cases hr
    | error e' =>
      cases hr
      obtain ⟨nibble,-,hn⟩ := List.mem_map.mp (hreduce.of_error rfl)
      exact .inr ⟨nibble,error_of_run hrun (by rw [hdone nibble,hn])⟩

end Run

end TrieRebuild
