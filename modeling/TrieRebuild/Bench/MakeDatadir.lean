import TrieRebuild.Bench.DatadirBench
import TrieRebuild.Memory.Overwrite
import TrieRebuild.Synth.Shape

/-! `make_datadir`: writes a synthetic hashed state into a datadir. A process that fails or is killed
has written all of it or nothing. -/
namespace TrieRebuild
open Foundation

/-- The line that the process prints, without the path. -/
structure StateCounts where
  accounts : ℕ
  storageSlots : ℕ

def MemoryState.counts {A : Type} (state : MemoryState A) : StateCounts :=
  ⟨state.accountCount,state.storageCount⟩

/-- The process's surroundings. The datadir is the one its first argument names. -/
structure MakeWorld (K S : Type) where
  db : Datadir Account K S
  stdout : List StateCounts := []
  stderr : List String := []

namespace MakeDatadir
variable {α : Type} {K S : Type}

section Program

/-- An optional number. -/
def parseCount (arg : Option String) (default : Usize) : Except String Usize :=
  match arg with
  | none => .ok default
  | some text =>
    match parseUsize text with
    | some n => .ok n
    | none => .error "usize"

/-- The configuration the arguments ask for, or the message of a panic. Arguments past the third
are not looked at. -/
def configOf : List String → Except String SynthConfig
  | [] => .error "datadir path"
  | _::args => do
    let eoas ← parseCount args[0]? 50000
    let smallContracts ← parseCount args[1]? 2000
    return {
      seed := 11
      eoas
      smallContracts
      smallSlotsMax := 16
      largeContracts := [20000] }

def panicked (msg : String) : Process (MakeWorld K S) α := do
  Process.act fun s (_ : Unit) s' => s' = { s with stderr := s.stderr ++ [msg] }
  Process.exit 101

def orPanic : Except String α → Process (MakeWorld K S) α
  | .ok a => pure a
  | .error msg => panicked msg

/-- `expect(msg)` on a call that may fail. -/
def expect (msg : String) (r : MakeWorld K S → α → MakeWorld K S → Prop) :
    Process (MakeWorld K S) α :=
  .either (.act r) (panicked msg)

def println (line : StateCounts) : Process (MakeWorld K S) Unit :=
  expect "failed printing to stdout" fun s _ s' => s' = { s with stdout := s.stdout ++ [line] }

variable (ε : Type)

def main (argv : List String) : Process (MakeWorld K S) Unit := do
  let config ← orPanic (configOf argv)
  let b ← orPanic ((synthesize config).elim
    (.error "attempt to calculate the remainder with a divisor of zero") .ok)
  -- opening a database that is there leaves its tables as they are
  expect "init db" fun s _ s' => s' = s
  let result ← Process.transaction (fun s : MakeWorld K S => s.db.hashed)
    (fun T s => { s with db := { s.db with hashed := T } })
    (writeHashedState b.state : Tx ε (HashedTables Account) Unit)
  orPanic (result.mapError fun _ => "write hashed state")
  println b.state.counts

end Program

/-- The state the process makes of its arguments. -/
def Makes (argv : List String) (state : MemoryState Account) : Prop :=
  ∃ config b, configOf argv = .ok config ∧ synthesize config = some b ∧ b.state = state

theorem Makes.state_eq {argv : List String} {state : MemoryState Account} {config : SynthConfig}
    (h : Makes argv state) (hargs : configOf argv = .ok config) {b : Synth}
    (hb : synthesize config = some b) : b.state = state := by
  obtain ⟨config',b',hc',hb',rfl⟩ := h
  rw [hargs] at hc'
  cases hc'
  rw [hb] at hb'
  cases hb'
  rfl

theorem Makes.unique {argv : List String} {state state' : MemoryState Account}
    (h : Makes argv state) (h' : Makes argv state') : state = state' := by
  obtain ⟨config,b,hc,hb,rfl⟩ := h
  exact h'.state_eq hc hb

theorem smallSlotsMax_configOf {argv : List String} {config : SynthConfig}
    (h : configOf argv = .ok config) :
    config.smallSlotsMax = 16 ∧ config.largeContracts = [20000] := by
  cases argv with
  | nil => cases h
  | cons dir args =>
    rw [configOf] at h
    cases he : parseCount args[0]? 50000 with
    | error msg =>
      rw [he] at h
      cases h
    | ok eoas =>
      cases hs : parseCount args[1]? 2000 with
      | error msg =>
        rw [he,hs] at h
        cases h
      | ok smallContracts =>
        rw [he,hs] at h
        cases h
        exact ⟨rfl,rfl⟩

theorem one_le_smallSlotsMax {argv : List String} {config : SynthConfig}
    (h : configOf argv = .ok config) : 1 ≤ config.smallSlotsMax := by
  rw [(smallSlotsMax_configOf h).1]
  decide

/-- `synthesize` does not panic on what `main` asks of it. -/
theorem exists_makes {argv : List String} {config : SynthConfig}
    (h : configOf argv = .ok config) : ∃ state, Makes argv state := by
  obtain ⟨b,-,-,-,hb,-⟩ := synthesize_grows config (.inl (one_le_smallSlotsMax h))
  exact ⟨b.state,config,b,h,hb,rfl⟩

section Endings
variable {ε : Type} {argv : List String} {db : Datadir Account K S} {s : MakeWorld K S}
variable {stop : Stop}

/-- What a process at work has done: nothing, or all of the write, which it may have reported. -/
inductive Progressed (argv : List String) (db : Datadir Account K S) (s : MakeWorld K S) : Prop
  | untouched (hdb : s.db = db) (hout : s.stdout = [])
  | wrote {state : MemoryState Account} (hm : Makes argv state)
      (hdb : s.db = { db with hashed := db.hashed.overwrite state })
      (hout : s.stdout = [] ∨ s.stdout = [state.counts])

/-- Nothing has gone wrong so far. -/
structure Working (argv : List String) (db : Datadir Account K S) (s : MakeWorld K S) : Prop where
  progressed : Progressed argv db s
  stderr : s.stderr = []

/-- What a process may have come to. -/
structure Ending (argv : List String) (db : Datadir Account K S) (stop : Stop)
    (s : MakeWorld K S) : Prop where
  progressed : Progressed argv db s
  status : stop = .killed ∨ (stop = .exited 101 ∧ ∃ msg, s.stderr = [msg]) ∨
    stop = .exited 0 ∧ s.stderr = [] ∧ ∃ state, Makes argv state ∧
      s.db = { db with hashed := db.hashed.overwrite state } ∧ s.stdout = [state.counts]

theorem Working.killed (h : Working argv db s) : Ending argv db .killed s :=
  ⟨h.progressed,.inl rfl⟩

/-- A process that exits with 0 has written and said so. -/
theorem Ending.settled (h : Ending argv db (.exited 0) s) : s.stderr = [] ∧ ∃ state,
    Makes argv state ∧ s.db = { db with hashed := db.hashed.overwrite state } ∧
      s.stdout = [state.counts] := by
  rcases h.status with hs | ⟨hs,-⟩ | ⟨-,hs⟩
  · cases hs
  · cases hs
  · exact hs

theorem wp_panicked {Q : α → MakeWorld K S → Prop} (h : Working argv db s) (msg : String) :
    Process.wp (panicked msg) Q (Ending argv db) s := by
  refine Process.wp_bind (Process.wp_act (fun _ s' hs' => ?_) h.killed)
  have hp : Progressed argv db s' := by
    rw [hs']
    cases h.progressed with
    | untouched hdb hout => exact .untouched hdb hout
    | wrote hm hdb hout => exact .wrote hm hdb hout
  refine Process.wp_exit ⟨hp,.inr (.inl ⟨rfl,msg,?_⟩)⟩ ⟨hp,.inl rfl⟩
  rw [hs',h.stderr,List.nil_append]

theorem wp_expect {Q : α → MakeWorld K S → Prop} (h : Working argv db s) {msg : String}
    {r : MakeWorld K S → α → MakeWorld K S → Prop} (hq : ∀ a s', r s a s' → Q a s') :
    Process.wp (expect msg r) Q (Ending argv db) s :=
  Process.wp_either (Process.wp_act hq h.killed) (wp_panicked h msg)

/-- However the process ends. -/
theorem main_ending (h : (main ε argv).run { db } stop s) : Ending argv db stop s := by
  have hstart : Working argv db ({ db } : MakeWorld K S) := ⟨.untouched rfl rfl,rfl⟩
  refine Process.wp_run ?_ h
  refine Process.wp_bind ?_
  cases hc : configOf argv with
  | error msg => exact wp_panicked hstart msg
  | ok config =>
    refine Process.wp_pure (Process.wp_bind ?_)
    cases hb : synthesize config with
    | none => exact wp_panicked hstart _
    | some b =>
      have hm : Makes argv b.state := ⟨config,b,hc,hb,rfl⟩
      refine Process.wp_pure (Process.wp_bind (wp_expect hstart fun _ s₁ hs₁ => ?_))
      rw [hs₁]
      obtain ⟨c,hy⟩ := writeHashedState_overwrites (ε := ε) b.state db.hashed
      refine Process.wp_bind (Process.wp_transaction hy rfl ?_
        (fun _ => Process.wp_bind (wp_panicked hstart _)) hstart.killed)
      refine Process.wp_bind (Process.wp_pure ?_)
      refine wp_expect ⟨.wrote hm rfl (.inl rfl),rfl⟩ fun _ s₃ hs₃ => ?_
      rw [hs₃]
      exact ⟨⟨.wrote hm rfl (.inr rfl),.inr (.inr ⟨rfl,rfl,b.state,hm,rfl,rfl⟩)⟩,
        ⟨.wrote hm rfl (.inr rfl),.inl rfl⟩⟩

theorem can_expect {Q : α → MakeWorld K S → Prop} {msg : String}
    {r : MakeWorld K S → α → MakeWorld K S → Prop} {s' : MakeWorld K S} (a : α) (hr : r s a s')
    (h : Q a s') : Process.can (expect msg r) Q s :=
  Process.can_either (Process.can_act hr h)

variable (ε) (argv) in
/-- With well-formed arguments the process can come to its end. -/
theorem exists_run {config : SynthConfig} (h : configOf argv = .ok config)
    (db : Datadir Account K S) : ∃ s, (main ε argv).run { db } (.exited 0) s := by
  obtain ⟨state,config',b,hc,hb,rfl⟩ := exists_makes h
  obtain ⟨c,hy⟩ := writeHashedState_overwrites (ε := ε) b.state db.hashed
  have hcan : Process.can (main ε argv) (fun _ _ => True) ({ db } : MakeWorld K S) := by
    rw [main,hc]
    refine Process.can_bind (Process.can_pure ?_)
    rw [hb]
    refine Process.can_bind (Process.can_pure ?_)
    refine Process.can_bind (can_expect () rfl ?_)
    refine Process.can_bind (Process.can_transaction hy (Process.can_bind (Process.can_pure ?_)))
    exact can_expect () rfl trivial
  obtain ⟨s,hs,-⟩ := Process.run_of_can hcan
  exact ⟨s,hs⟩

/-- Wherever the process is stopped, the database is as it was, or its hashed tables have the whole
state that the arguments ask for put over them; nothing else in it has changed. The line comes after
the write and counts the state. The exit status is 0 if both are there and 101 after one message,
which may also come between the two. Bad arguments leave the database alone. -/
theorem whole_or_nothing (h : (main ε argv).run { db } stop s) :
    (s.db = db ∨ ∃ state, Makes argv state ∧
      s.db = { db with hashed := db.hashed.overwrite state }) ∧
    (∀ line ∈ s.stdout, ∃ state, Makes argv state ∧
      s.db = { db with hashed := db.hashed.overwrite state } ∧ line = state.counts) ∧
    (stop = .exited 0 → s.stderr = [] ∧ ∃ state, Makes argv state ∧
      s.db = { db with hashed := db.hashed.overwrite state } ∧ s.stdout = [state.counts]) ∧
    (stop = .killed ∨ stop = .exited 0 ∨ stop = .exited 101 ∧ ∃ msg, s.stderr = [msg]) ∧
    ∀ msg, configOf argv = .error msg → s.db = db ∧ s.stdout = [] ∧ stop ≠ .exited 0 := by
  obtain ⟨hp,hstatus⟩ := main_ending h
  refine ⟨?_,fun line hl => ?_,?_,?_,fun msg hmsg => ?_⟩
  · cases hp with
    | untouched hdb hout => exact .inl hdb
    | wrote hm hdb hout => exact .inr ⟨_,hm,hdb⟩
  · cases hp with
    | untouched hdb hout =>
      rw [hout] at hl
      cases hl
    | @wrote state hm hdb hout =>
      rcases hout with hout | hout
      · rw [hout] at hl
        cases hl
      · rw [hout,List.mem_singleton] at hl
        exact ⟨state,hm,hdb,hl⟩
  · rintro rfl
    exact (main_ending h).settled
  · rcases hstatus with hs | hs | ⟨hs,-⟩
    · exact .inl hs
    · exact .inr (.inr hs)
    · exact .inr (.inl hs)
  · have hnone : ∀ state, ¬ Makes argv state := by
      rintro state ⟨config,b,hc,-⟩
      rw [hmsg] at hc
      cases hc
    cases hp with
    | wrote hm => exact absurd hm (hnone _)
    | untouched hdb hout =>
      refine ⟨hdb,hout,?_⟩
      rintro rfl
      obtain ⟨-,state,hm,-⟩ := (main_ending h).settled
      exact hnone state hm

/-- A process that comes to its end reports a state. -/
theorem whole_or_nothing_sample : ∃ s : MakeWorld Unit Unit, (main Unit ["d","3","1"]).run { db := {} }
    (.exited 0) s ∧ s.stdout ≠ [] := by
  obtain ⟨s,hs⟩ := exists_run Unit ["d","3","1"] rfl {}
  obtain ⟨-,state,-,-,hout⟩ := (whole_or_nothing hs).2.2.1 rfl
  refine ⟨s,hs,?_⟩
  rw [hout]
  exact List.cons_ne_nil _ _

end Endings

/-- The database copy of a synthetic state is the state. -/
theorem Makes.sameState {argv : List String} {state : MemoryState Account} (h : Makes argv state)
    (api : PostStateApi Account) : SameState api state (hashedCopy state) := by
  obtain ⟨config,b,hc,hb,rfl⟩ := h
  obtain ⟨b',_,eoas,contracts,hb',-,-,-,-,-,-,hg⟩ :=
    synthesize_grows config (.inl (one_le_smallSlotsMax hc))
  rw [hb] at hb'
  cases hb'
  have hstate : b.state = MemoryState.run api (plannedCalls eoas contracts) := by
    rw [hg.state api rfl,hg.made]
    rfl
  rw [hstate]
  apply sameState_of_accounts
  -- a slot is set under the address of a contract, which has been inserted before
  intro k v hv
  rw [MemoryState.slotAt_run,Option.filter_eq_some_iff] at hv
  have hm := mem_of_latest hv.1
  rw [slot_plannedCalls,List.mem_flatMap] at hm
  obtain ⟨c,hc,hm⟩ := hm
  obtain ⟨e,-,he⟩ := List.mem_map.mp hm
  cases he
  refine (mem_accounts_run api _).mpr ⟨c.account,List.mem_append_right _ ?_⟩
  exact List.mem_flatMap.mpr ⟨c,hc,List.mem_cons_self⟩

/-- The shape that some arguments ask for: externally owned accounts, small contracts of one to
sixteen slots, and one large contract. -/
structure ConfiguredShape (config : SynthConfig) (state : MemoryState Account)
    (eoas contracts : List B256) (small : List ℕ) : Prop where
  eoaCount : eoas.length = config.eoas.toNat
  smallCount : small.length = config.smallContracts.toNat
  range : ∀ n ∈ small, 1 ≤ n ∧ n ≤ 16
  shape : HasShape state eoas contracts (small ++ [20000])

theorem ConfiguredShape.counts {config : SynthConfig} {state : MemoryState Account}
    {eoas contracts : List B256} {small : List ℕ}
    (h : ConfiguredShape config state eoas contracts small) :
    state.counts = ⟨config.eoas.toNat+config.smallContracts.toNat+1,small.sum+20000⟩ := by
  have hlen := congrArg List.length h.shape.slots
  rw [List.length_map,List.length_append,h.smallCount,List.length_singleton] at hlen
  rw [MemoryState.counts,h.shape.accountCount,h.shape.storageCount,h.eoaCount,hlen,List.sum_append,
    Nat.add_assoc]
  rfl

end MakeDatadir
end TrieRebuild
