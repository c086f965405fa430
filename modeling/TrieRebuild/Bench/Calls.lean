import TrieRebuild.Bench.Lines
import TrieRebuild.Progress.Rate
import TrieRebuild.Sink.Delivered
import TrieRebuild.Sink.Persisted

/-! The weakest preconditions of the calls `main` is made of, in a process at work. -/
namespace TrieRebuild
open Foundation

namespace World
variable {Account K S : Type} (s : World Account K S)

theorem print_eq (line : Output) : s.print line = s.after s.db.trie [line] [] := by
  simp [print,after]

theorem complain_eq (complaint : Complaint) :
    s.complain complaint = s.after s.db.trie [] [complaint] := by
  simp [complain,after]

theorem after_after (T U : TrieTables K S) (lines lines' : List Output)
    (complaints complaints' : List Complaint) :
    (s.after T lines complaints).after U lines' complaints' =
      s.after U (lines ++ lines') (complaints ++ complaints') := by
  simp [after]

theorem suffix_print (line : Output) : [line] <:+ (s.print line).stdout := List.suffix_append _ _

theorem after_nil : s.after s.db.trie [] [] = s := by
  simp [after]

end World

namespace DatadirBench
variable {α : Type} {ε W I Account K S : Type} [DecidableEq K] [DecidableEq S]
variable {D : Dependencies ε W I Account K S} {ι : Type} [DecidableEq ι]
variable {args : Args} {db : Datadir Account K S} {s : World Account K S}

/-- Truth is kept by what changes the tables as it may and prints what is true. -/
theorem Sound.after (h : Sound D ι args db s) {T : TrieTables K S} {lines : List Output}
    (hT : Leaves D args db T)
    (hl : Justified (fun before => Truthful D ι args db (s.stdout ++ before)) lines)
    (complaints : List Complaint) : Sound D ι args db (s.after T lines complaints) where
  frame := by
    change ({ s.db with trie := T } : Datadir Account K S) = { db with trie := T }
    rw [h.frame]
  trie := hT
  stdout := h.stdout.append hl

namespace Working

theorem after (h : Working D ι args db s) {T : TrieTables K S} {lines : List Output}
    (hT : Leaves D args db T)
    (hl : Justified (fun before => Truthful D ι args db (s.stdout ++ before)) lines) :
    Working D ι args db (s.after T lines []) where
  toSound := h.toSound.after hT hl []
  stderr := by rw [World.after,h.stderr,List.append_nil]

theorem print (h : Working D ι args db s) {line : Output}
    (hl : Truthful D ι args db s.stdout line) : Working D ι args db (s.print line) where
  frame := h.frame
  trie := h.trie
  stdout := h.stdout.concat hl
  stderr := h.stderr

theorem halts (h : Working D ι args db s) {T : TrieTables K S} {lines : List Output}
    {complaints : List Complaint} {stop : Stop} (hT : Leaves D args db T)
    (hl : Justified (fun before => Truthful D ι args db (s.stdout ++ before)) lines)
    (hs : Halts stop complaints) :
    Ending D ι args db stop (s.after T lines complaints) where
  toSound := h.toSound.after hT hl complaints
  status := by
    rcases hs.stop with rfl | rfl
    · exact .killed
    · refine .panicked ?_
      rw [World.after,h.stderr,List.nil_append]
      exact hs.complaints

theorem killed (h : Working D ι args db s) : Ending D ι args db .killed s :=
  ⟨h.toSound,.killed⟩

theorem hashed (h : Working D ι args db s) : s.db.hashed = db.hashed := by rw [h.frame]

theorem settings (h : Working D ι args db s) : s.db.settings = db.settings := by rw [h.frame]

theorem finishBlock (h : Working D ι args db s) : s.db.finishBlock = db.finishBlock := by
  rw [h.frame]

theorem adapter (h : Working D ι args db s) : adapter D s.db = adapter D db := by
  rw [DatadirBench.adapter,h.settings]
  rfl

end Working

variable {Q : α → World Account K S → Prop}

theorem wp_panicked (h : Working D ι args db s) (msg : String) :
    Process.wp (panicked msg) Q (Ending D ι args db) s := by
  refine Process.wp_bind (Process.wp_act (fun _ s' hs' => ?_) h.killed)
  have hone : ∀ c ∈ [Complaint.panicked msg], ∃ msg, c = .panicked msg := by simp
  rw [hs',World.complain_eq]
  refine Process.wp_exit ?_ ?_
  · exact h.halts h.trie .nil ⟨.inr rfl,hone⟩
  · exact h.halts h.trie .nil ⟨.inl rfl,hone⟩

theorem wp_expect (h : Working D ι args db s) {msg : String}
    {r : World Account K S → α → World Account K S → Prop} (hq : ∀ a s', r s a s' → Q a s') :
    Process.wp (expect msg r) Q (Ending D ι args db) s :=
  Process.wp_either (Process.wp_act hq h.killed) (wp_panicked h msg)

theorem wp_println {Q : Unit → World Account K S → Prop} (h : Working D ι args db s)
    {line : Output} (hl : Truthful D ι args db s.stdout line)
    (hq : Working D ι args db (s.print line) → Q () (s.print line)) :
    Process.wp (println line) Q (Ending D ι args db) s := by
  refine wp_expect h fun _ s' hs' => ?_
  rw [hs']
  exact hq (h.print hl)

theorem wp_eprintln {Q : Unit → World Account K S → Prop} (h : Working D ι args db s)
    {complaint : Complaint} (hq : Q () (s.complain complaint)) :
    Process.wp (eprintln complaint) Q (Ending D ι args db) s := by
  refine Process.wp_either (Process.wp_act (fun _ s' hs' => ?_) h.killed)
    (Process.wp_exit ⟨h.toSound,.panicked ?_⟩ h.killed)
  · rw [hs']
    exact hq
  · rw [h.stderr]
    simp

theorem wp_readTx {Q : Datadir Account K S → World Account K S → Prop}
    (h : Working D ι args db s) (hq : Q s.db s) :
    Process.wp readTx Q (Ending D ι args db) s := by
  refine wp_expect h fun tx s' hs' => ?_
  rw [hs'.1,hs'.2]
  exact hq

theorem wp_printTip {Q : Unit → World Account K S → Prop} (h : Working D ι args db s)
    {tx : Datadir Account K S} (htx : tx.finishBlock = db.finishBlock)
    (hq : Working D ι args db (s.print (.tip db.finishBlock)) →
      Q () (s.print (.tip db.finishBlock))) :
    Process.wp (printTip tx) Q (Ending D ι args db) s := by
  refine Process.wp_bind (wp_expect h fun tip s' hs' => ?_)
  rw [hs'.1,hs'.2,htx]
  exact wp_println h .tip hq

theorem wp_hashedEntries {Q : UInt64 → World Account K S → Prop} (h : Working D ι args db s)
    {tx : Datadir Account K S} (htx : tx.hashed = db.hashed) (hq : Q (entriesOf db.hashed) s) :
    Process.wp (hashedEntries tx) Q (Ending D ι args db) s := by
  refine Process.wp_bind (wp_expect h fun accounts s' hs' => ?_)
  rw [hs'.2]
  refine Process.wp_bind (wp_expect h fun storages s' hs'' => ?_)
  rw [hs''.2,hs'.1,hs''.1,htx]
  exact Process.wp_pure hq

/-- A mismatch about a shown root ends the process with 1. -/
theorem wp_mismatch (h : Working D ι args db s) {complaint : Complaint}
    (hc : Mismatch D args db s.stdout s.db.trie complaint) :
    Process.wp (do
      eprintln complaint
      Process.exit 1) Q (Ending D ι args db) s := by
  have hsound : Sound D ι args db (s.complain complaint) := by
    rw [World.complain_eq]
    exact h.toSound.after h.trie .nil _
  refine Process.wp_bind (wp_eprintln h (Process.wp_exit ⟨hsound,.mismatch ?_ hc⟩ ⟨hsound,.killed⟩))
  rw [World.complain,h.stderr]
  rfl

theorem wp_checkRoot {Q : Unit → World Account K S → Prop} (h : Working D ι args db s)
    {line : Output} {root : B256} (hl : [line] <:+ s.stdout) (hr : line.root? = some root)
    (hq : (∀ expected, args.expectedRoot = some expected → root = expected) →
      Working D ι args db (s.after s.db.trie (matchedLines args line) []) →
        Q () (s.after s.db.trie (matchedLines args line) [])) :
    Process.wp (checkRoot root args.expectedRoot line.label) Q (Ending D ι args db) s := by
  cases he : args.expectedRoot with
  | none =>
    have hlines : matchedLines args line = [] := by rw [matchedLines,he]
    rw [hlines,World.after_nil,he] at hq
    exact Process.wp_pure (hq (fun _ hn => by cases hn) h)
  | some expected =>
    have hlines : matchedLines args line = [.matched line.label] := by rw [matchedLines,he]
    rw [hlines,← World.print_eq,he] at hq
    rw [checkRoot]
    split_ifs with hroot
    · subst hroot
      refine wp_println h (.matched hl hr he) fun hs => hq (fun _ hn => ?_) hs
      cases hn
      rfl
    · exact wp_mismatch h (.expected hl hr he hroot)

end DatadirBench
end TrieRebuild
