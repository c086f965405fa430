import TrieRebuild.Trie.Types

/-! The command line of the datadir benchmark: `parse_args`, and the language it accepts. -/
namespace TrieRebuild

/-- The nodes a chunk holds unless a flag says otherwise. -/
def defaultChunkNodes : Usize := 100000

@[ext]
structure Args where
  datadir : String := ""
  threads : Option Usize := none
  repeats : Usize := 1
  expectedRoot : Option B256 := none
  write : Bool := false
  chunkNodes : Usize := defaultChunkNodes
  rethSerial : Bool := false
  rethRebuild : Bool := false
  clearTrieTables : Bool := false
  digestTrieTables : Bool := false
  deriving DecidableEq

/-- `str::parse` at `usize`: a plus sign if any, then digits, of a number that fits. -/
def parseUsize (text : String) : Option Usize :=
  let digits : List Char := match text.toList with
    | '+' :: digits => digits
    | digits => digits
  let value : ℕ := digits.foldl (fun value c => 10*value+(c.toNat - '0'.toNat)) 0
  if digits ≠ [] ∧ digits.all Char.isDigit ∧ value < 2^64 then some (.ofNat value) else none

/-- What an arm of the `match` on a flag does: it takes a value, which may be bad, it sets a switch,
or it is the arm for all other strings. -/
inductive FlagArm
  | value (set : String → Except String Args)
  | switch (args : Args)
  | unknown

section Parse
variable (parseRoot : String → Option B256)

/-- `value().parse().unwrap_or_else(|_| usage(msg))`. -/
def parsed {α : Type} (parse : String → Option α) (msg : String) (set : α → Args) :
    FlagArm :=
  .value fun text =>
    match parse text with
    | some a => .ok (set a)
    | none => .error msg

/-- The arms. -/
def flagArm (args : Args) : String → FlagArm
  | "--datadir" => .value fun path => .ok { args with datadir := path }
  | "--threads" => parsed parseUsize "bad --threads" fun n => { args with threads := some n }
  | "--repeat" => parsed parseUsize "bad --repeat" fun n => { args with repeats := n }
  | "--expected-root" =>
    parsed parseRoot "bad --expected-root" fun root => { args with expectedRoot := some root }
  | "--write" => .switch { args with write := true }
  | "--chunk-nodes" => parsed parseUsize "bad --chunk-nodes" fun n => { args with chunkNodes := n }
  | "--reth-serial" => .switch { args with rethSerial := true }
  | "--reth-rebuild" => .switch { args with rethRebuild := true }
  | "--clear-trie-tables" => .switch { args with clearTrieTables := true }
  | "--digest-trie-tables" => .switch { args with digestTrieTables := true }
  | _ => .unknown

/-- The loop over the arguments. A value is the next argument, whatever it looks like. -/
def parseFlags (args : Args) : List String → Except String Args
  | [] => .ok args
  | flag::it =>
    match flagArm parseRoot args flag with
    | .value set =>
      match it with
      | [] => .error s!"{flag} needs a value"
      | value::it =>
        match set value with
        | .ok args => parseFlags args it
        | .error msg => .error msg
    | .switch args => parseFlags args it
    | .unknown => .error s!"unknown flag {flag}"

/-- `parse_args`, with the message that `usage` prints. -/
def parseArgs (argv : List String) : Except String Args :=
  match parseFlags parseRoot {} argv with
  | .error msg => .error msg
  | .ok args => if args.datadir = "" then .error "--datadir is required" else .ok args

end Parse

/-- A well-formed setting, with the text of its value. -/
inductive Setting (parseRoot : String → Option B256)
  | datadir (path : String)
  | threads (text : String) (n : Usize) (h : parseUsize text = some n)
  | repeats (text : String) (n : Usize) (h : parseUsize text = some n)
  | expectedRoot (text : String) (root : B256) (h : parseRoot text = some root)
  | write
  | chunkNodes (text : String) (n : Usize) (h : parseUsize text = some n)
  | rethSerial
  | rethRebuild
  | clearTrieTables
  | digestTrieTables

/-- The flags that take a value, and all flags. -/
def valueFlags : List String :=
  ["--datadir","--threads","--repeat","--expected-root","--chunk-nodes"]

def flags : List String :=
  valueFlags ++ ["--write","--reth-serial","--reth-rebuild","--clear-trie-tables",
    "--digest-trie-tables"]

namespace Setting
variable {parseRoot : String → Option B256}

def flag : Setting parseRoot → String
  | datadir _ => "--datadir"
  | threads _ _ _ => "--threads"
  | repeats _ _ _ => "--repeat"
  | expectedRoot _ _ _ => "--expected-root"
  | write => "--write"
  | chunkNodes _ _ _ => "--chunk-nodes"
  | rethSerial => "--reth-serial"
  | rethRebuild => "--reth-rebuild"
  | clearTrieTables => "--clear-trie-tables"
  | digestTrieTables => "--digest-trie-tables"

/-- The arguments that write the setting. -/
def words (s : Setting parseRoot) : List String :=
  match s with
  | datadir path => [s.flag,path]
  | threads text _ _ => [s.flag,text]
  | repeats text _ _ => [s.flag,text]
  | expectedRoot text _ _ => [s.flag,text]
  | chunkNodes text _ _ => [s.flag,text]
  | _ => [s.flag]

def apply (args : Args) : Setting parseRoot → Args
  | datadir path => { args with datadir := path }
  | threads _ n _ => { args with threads := some n }
  | repeats _ n _ => { args with repeats := n }
  | expectedRoot _ root _ => { args with expectedRoot := some root }
  | write => { args with write := true }
  | chunkNodes _ n _ => { args with chunkNodes := n }
  | rethSerial => { args with rethSerial := true }
  | rethRebuild => { args with rethRebuild := true }
  | clearTrieTables => { args with clearTrieTables := true }
  | digestTrieTables => { args with digestTrieTables := true }

/-- A later setting of a flag replaces an earlier one. -/
theorem apply_apply (s s' : Setting parseRoot) (h : s.flag = s'.flag) (args : Args) :
    s'.apply (s.apply args) = s'.apply args := by
  cases s <;> cases s' <;> first | rfl | simp [flag] at h

end Setting

section Language
variable {parseRoot : String → Option B256}

/-- Arguments that no setting starts, with what is wrong about the first of them. -/
inductive Offends (parseRoot : String → Option B256) : List String → String → Prop
  | missing (flag : String) (h : flag ∈ valueFlags) :
      Offends parseRoot [flag] s!"{flag} needs a value"
  | badNumber (flag text : String) (it : List String)
      (h : flag ∈ ["--threads","--repeat","--chunk-nodes"]) (hn : parseUsize text = none) :
      Offends parseRoot (flag::text::it) s!"bad {flag}"
  | badRoot (text : String) (it : List String) (hn : parseRoot text = none) :
      Offends parseRoot ("--expected-root"::text::it) "bad --expected-root"
  | unknown (flag : String) (it : List String) (h : flag ∉ flags) :
      Offends parseRoot (flag::it) s!"unknown flag {flag}"

/-- The loop takes a well-formed setting and goes on. -/
theorem parseFlags_words (args : Args) (s : Setting parseRoot) (it : List String) :
    parseFlags parseRoot args (s.words ++ it) = parseFlags parseRoot (s.apply args) it := by
  cases s with
  | threads text n h | repeats text n h | chunkNodes text n h | expectedRoot text root h =>
    simp [Setting.words,Setting.flag,Setting.apply,parseFlags,flagArm,parsed,h]
  | _ => rfl

theorem parseFlags_settings (settings : List (Setting parseRoot)) (args : Args)
    (rest : List String) :
    parseFlags parseRoot args (settings.flatMap Setting.words ++ rest) =
      parseFlags parseRoot (settings.foldl Setting.apply args) rest := by
  induction settings generalizing args with
  | nil => rfl
  | cons s settings ih =>
    rw [List.flatMap_cons,List.append_assoc,parseFlags_words,ih,List.foldl_cons]

theorem Offends.parseFlags_eq {rest : List String} {msg : String}
    (h : Offends parseRoot rest msg) (args : Args) :
    parseFlags parseRoot args rest = .error msg := by
  cases h with
  | missing flag h =>
    simp only [valueFlags,List.mem_cons,List.not_mem_nil,or_false] at h
    rcases h with rfl | rfl | rfl | rfl | rfl <;> rfl
  | badNumber flag text it h hn =>
    simp only [List.mem_cons,List.not_mem_nil,or_false] at h
    rcases h with rfl | rfl | rfl <;> simp [parseFlags,flagArm,parsed,hn] <;> rfl
  | badRoot text it hn => simp [parseFlags,flagArm,parsed,hn]
  | unknown flag it h =>
    have harm : flagArm parseRoot args flag = .unknown := by
      unfold flagArm
      split <;> first | rfl | exact absurd (by decide) h
    rw [parseFlags,harm]

variable (parseRoot) in
/-- What comes next is a well-formed setting or offends. -/
theorem exists_setting_or_offends (flag : String) (it : List String) :
    (∃ (s : Setting parseRoot) (it' : List String), flag::it = s.words ++ it') ∨
      ∃ msg, Offends parseRoot (flag::it) msg := by
  by_cases hf : flag ∈ flags
  · by_cases hv : flag ∈ valueFlags
    · cases it with
      | nil => exact .inr ⟨_,.missing flag hv⟩
      | cons text it =>
        simp only [valueFlags,List.mem_cons,List.not_mem_nil,or_false] at hv
        rcases hv with rfl | rfl | rfl | rfl | rfl
        · exact .inl ⟨.datadir text,it,rfl⟩
        · cases hn : parseUsize text with
          | some n => exact .inl ⟨.threads text n hn,it,rfl⟩
          | none => exact .inr ⟨_,.badNumber _ text it (by simp) hn⟩
        · cases hn : parseUsize text with
          | some n => exact .inl ⟨.repeats text n hn,it,rfl⟩
          | none => exact .inr ⟨_,.badNumber _ text it (by simp) hn⟩
        · cases hn : parseRoot text with
          | some root => exact .inl ⟨.expectedRoot text root hn,it,rfl⟩
          | none => exact .inr ⟨_,.badRoot text it hn⟩
        · cases hn : parseUsize text with
          | some n => exact .inl ⟨.chunkNodes text n hn,it,rfl⟩
          | none => exact .inr ⟨_,.badNumber _ text it (by simp) hn⟩
    · rw [flags,List.mem_append] at hf
      have hs := hf.resolve_left hv
      simp only [List.mem_cons,List.not_mem_nil,or_false] at hs
      rcases hs with rfl | rfl | rfl | rfl | rfl
      · exact .inl ⟨.write,it,rfl⟩
      · exact .inl ⟨.rethSerial,it,rfl⟩
      · exact .inl ⟨.rethRebuild,it,rfl⟩
      · exact .inl ⟨.clearTrieTables,it,rfl⟩
      · exact .inl ⟨.digestTrieTables,it,rfl⟩
  · exact .inr ⟨_,.unknown flag it hf⟩

theorem Setting.words_ne_nil (s : Setting parseRoot) : s.words ≠ [] := by
  cases s <;> simp [Setting.words]

variable (parseRoot) in
/-- Every command line is settings up to its end, or up to what offends. -/
theorem exists_settings (argv : List String) :
    ∃ (settings : List (Setting parseRoot)) (rest : List String),
      argv = settings.flatMap Setting.words ++ rest ∧
        (rest = [] ∨ ∃ msg, Offends parseRoot rest msg) := by
  induction hn : argv.length using Nat.strong_induction_on generalizing argv with
  | _ n ih =>
    cases argv with
    | nil => exact ⟨[],[],rfl,.inl rfl⟩
    | cons flag it =>
      rcases exists_setting_or_offends parseRoot flag it with ⟨s,it',h⟩ | ⟨msg,h⟩
      · have hlen : it'.length < n := by
          have hs := List.length_pos_iff.mpr s.words_ne_nil
          have hl := congrArg List.length h
          rw [List.length_append] at hl
          omega
        obtain ⟨settings,rest,rfl,hrest⟩ := ih _ hlen it' rfl
        exact ⟨s::settings,rest,by rw [h,List.flatMap_cons,List.append_assoc],hrest⟩
      · exact ⟨[],flag::it,rfl,.inr ⟨msg,h⟩⟩

/-- A field that one flag's settings replace and the others leave alone depends on these alone. -/
theorem foldl_field {γ : Type} (get : Args → γ) (flag : String)
    (hget : ∀ (args args' : Args) (s : Setting parseRoot),
      if s.flag = flag then get (s.apply args) = get (s.apply args')
      else get (s.apply args) = get args)
    (settings : List (Setting parseRoot)) (args args' : Args) (h : get args = get args') :
    get (settings.foldl Setting.apply args) =
      get ((settings.filter fun s => s.flag = flag).foldl Setting.apply args') := by
  induction settings generalizing args args' with
  | nil => exact h
  | cons s settings ih =>
    have hs := hget args args' s
    rw [List.foldl_cons,List.filter_cons]
    by_cases hflag : s.flag = flag
    · rw [if_pos hflag] at hs
      rw [if_pos (by simpa using hflag)]
      exact ih _ _ hs
    · rw [if_neg hflag] at hs
      rw [if_neg (by simpa using hflag)]
      exact ih _ _ (hs.trans h)

/-- Settings of different flags commute. -/
theorem foldl_apply_eq {settings settings' : List (Setting parseRoot)}
    (h : ∀ flag, (settings.filter fun s => s.flag = flag) =
      settings'.filter fun s => s.flag = flag) (args : Args) :
    settings.foldl Setting.apply args = settings'.foldl Setting.apply args := by
  have hfield : ∀ {γ : Type} (get : Args → γ) (flag : String),
      (∀ (args args' : Args) (s : Setting parseRoot),
        if s.flag = flag then get (s.apply args) = get (s.apply args')
        else get (s.apply args) = get args) →
      get (settings.foldl Setting.apply args) = get (settings'.foldl Setting.apply args) := by
    intro γ get flag hget
    rw [foldl_field get flag hget settings args args rfl,h flag,
      ← foldl_field get flag hget settings' args args rfl]
  apply Args.ext
  · exact hfield Args.datadir "--datadir" (by intro _ _ s; cases s <;> rfl)
  · exact hfield Args.threads "--threads" (by intro _ _ s; cases s <;> rfl)
  · exact hfield Args.repeats "--repeat" (by intro _ _ s; cases s <;> rfl)
  · exact hfield Args.expectedRoot "--expected-root" (by intro _ _ s; cases s <;> rfl)
  · exact hfield Args.write "--write" (by intro _ _ s; cases s <;> rfl)
  · exact hfield Args.chunkNodes "--chunk-nodes" (by intro _ _ s; cases s <;> rfl)
  · exact hfield Args.rethSerial "--reth-serial" (by intro _ _ s; cases s <;> rfl)
  · exact hfield Args.rethRebuild "--reth-rebuild" (by intro _ _ s; cases s <;> rfl)
  · exact hfield Args.clearTrieTables "--clear-trie-tables" (by intro _ _ s; cases s <;> rfl)
  · exact hfield Args.digestTrieTables "--digest-trie-tables" (by intro _ _ s; cases s <;> rfl)

theorem parseArgs_of_settings (settings : List (Setting parseRoot)) :
    parseArgs parseRoot (settings.flatMap Setting.words) =
      if (settings.foldl Setting.apply {}).datadir = "" then .error "--datadir is required"
      else .ok (settings.foldl Setting.apply {}) := by
  have h := parseFlags_settings settings {} []
  rw [List.append_nil] at h
  rw [parseArgs,h]
  rfl

theorem Offends.parseArgs_eq {rest : List String} {msg : String}
    (h : Offends parseRoot rest msg) (settings : List (Setting parseRoot)) :
    parseArgs parseRoot (settings.flatMap Setting.words ++ rest) = .error msg := by
  rw [parseArgs,parseFlags_settings,h.parseFlags_eq]

/-- The command lines that are accepted are the sequences of well-formed settings with a datadir
among them. Of the others, the first argument that does not fit decides the message. Settings of
different flags commute, and of one flag the last one holds. -/
theorem parseArgs_grammar (parseRoot : String → Option B256) (argv : List String) :
    (∀ args, parseArgs parseRoot argv = .ok args ↔
      ∃ settings : List (Setting parseRoot), argv = settings.flatMap Setting.words ∧
        settings.foldl Setting.apply {} = args ∧ args.datadir ≠ "") ∧
    (∀ msg, parseArgs parseRoot argv = .error msg ↔
      (∃ (settings : List (Setting parseRoot)) (rest : List String),
        argv = settings.flatMap Setting.words ++ rest ∧ Offends parseRoot rest msg) ∨
      ∃ settings : List (Setting parseRoot), argv = settings.flatMap Setting.words ∧
        (settings.foldl Setting.apply {}).datadir = "" ∧ msg = "--datadir is required") ∧
    (∀ settings settings' : List (Setting parseRoot),
      (∀ flag, (settings.filter fun s => s.flag = flag) =
        settings'.filter fun s => s.flag = flag) →
      settings.foldl Setting.apply {} = settings'.foldl Setting.apply {}) ∧
    ∀ (s s' : Setting parseRoot) (args : Args), s.flag = s'.flag →
      s'.apply (s.apply args) = s'.apply args := by
  refine ⟨fun args => ⟨fun h => ?_,?_⟩,fun msg => ⟨fun h => ?_,?_⟩,
    fun settings settings' h => foldl_apply_eq h {},fun s s' args h => s.apply_apply s' h args⟩
  · obtain ⟨settings,rest,rfl,hrest⟩ := exists_settings parseRoot argv
    rcases hrest with rfl | ⟨msg,ho⟩
    · rw [List.append_nil,parseArgs_of_settings] at h
      split_ifs at h with hempty
      cases h
      exact ⟨settings,List.append_nil _,rfl,hempty⟩
    · rw [ho.parseArgs_eq] at h
      cases h
  · rintro ⟨settings,rfl,rfl,hne⟩
    rw [parseArgs_of_settings,if_neg hne]
  · obtain ⟨settings,rest,rfl,hrest⟩ := exists_settings parseRoot argv
    rcases hrest with rfl | ⟨msg',ho⟩
    · rw [List.append_nil,parseArgs_of_settings] at h
      split_ifs at h with hempty
      cases h
      exact .inr ⟨settings,List.append_nil _,hempty,rfl⟩
    · rw [ho.parseArgs_eq] at h
      cases h
      exact .inl ⟨settings,rest,rfl,ho⟩
  · rintro (⟨settings,rest,rfl,ho⟩ | ⟨settings,rfl,hempty,rfl⟩)
    · exact ho.parseArgs_eq settings
    · rw [parseArgs_of_settings,if_pos hempty]

example : parseUsize "+007" = some 7 := by decide

end Language
end TrieRebuild
