import Mathlib

/-! Words, nibble paths and branch nodes, as the repository's reth and alloy types carry them. -/
namespace TrieRebuild

/-- `usize` on a 64-bit target. -/
abbrev Usize := UInt64

/-- Bytes are ordered by value. -/
instance linearOrderByte : LinearOrder UInt8 where
  le_refl := UInt8.le_refl
  le_trans _ _ _ := UInt8.le_trans
  lt_iff_le_not_ge _ _ := by simp only [UInt8.le_iff_toNat_le,UInt8.lt_iff_toNat_lt]; omega
  le_antisymm _ _ := UInt8.le_antisymm
  le_total := UInt8.le_total
  toDecidableLE := inferInstance
  toDecidableEq := inferInstance

/-- A 32-byte word. -/
structure B256 where
  bytes : List UInt8
  length_eq : bytes.length = 32
  deriving DecidableEq

namespace B256

theorem bytes_injective : Function.Injective B256.bytes := by
  intro a b h
  cases a; cases b
  simpa using h

/-- Words compare bytewise from the first byte, as keys do in the database. -/
instance linearOrder : LinearOrder B256 where
  le a b := a.bytes ≤ b.bytes
  lt a b := a.bytes < b.bytes
  le_refl a := le_refl a.bytes
  le_trans _ _ _ := le_trans (α := List UInt8)
  lt_iff_le_not_ge a b := lt_iff_le_not_ge (a := a.bytes) (b := b.bytes)
  le_antisymm _ _ h h' := bytes_injective (le_antisymm h h')
  le_total a b := le_total a.bytes b.bytes
  toDecidableLE a b := inferInstanceAs (Decidable (a.bytes ≤ b.bytes))
  toDecidableLT a b := inferInstanceAs (Decidable (a.bytes < b.bytes))
  toDecidableEq := inferInstance

theorem le_iff (a b : B256) : a ≤ b ↔ a.bytes ≤ b.bytes := Iff.rfl

def repeatByte (b : UInt8) : B256 := ⟨List.replicate 32 b,List.length_replicate⟩

def zero : B256 := repeatByte 0

/-- The word starting with one byte and padded with zeros. -/
def rightPaddingFrom (b : UInt8) : B256 := ⟨b :: List.replicate 31 0,by simp⟩

/-- The first byte, the `[0]` of the source. -/
def firstByte (a : B256) : UInt8 := a.bytes.headD 0

/-- The word with its first byte replaced. -/
def setFirst (a : B256) (b : UInt8) : B256 := ⟨b::a.bytes.tail,by simp [a.length_eq]⟩

theorem bytes_eq_cons (a : B256) : ∃ t, a.bytes = a.firstByte::t ∧ t.length = 31 := by
  obtain ⟨bytes,hl⟩ := a
  cases bytes with
  | nil => simp at hl
  | cons b t =>
    refine ⟨t,rfl,?_⟩
    simpa using hl

end B256

/-- The first nibble of a word. -/
def firstNibble (a : B256) : Fin 16 := ⟨a.firstByte.toNat/16,by have := a.firstByte.toNat_lt; omega⟩

/-- A path of at most 64 nibbles. -/
structure Nibbles where
  nibbles : List (Fin 16)
  length_le : nibbles.length ≤ 64
  deriving DecidableEq

namespace Nibbles

theorem nibbles_injective : Function.Injective Nibbles.nibbles := by
  intro p q h
  cases p; cases q
  simpa using h

/-- Paths compare nibble by nibble. -/
instance linearOrder : LinearOrder Nibbles where
  le p q := p.nibbles ≤ q.nibbles
  lt p q := p.nibbles < q.nibbles
  le_refl p := le_refl p.nibbles
  le_trans _ _ _ := le_trans (α := List (Fin 16))
  lt_iff_le_not_ge p q := lt_iff_le_not_ge (a := p.nibbles) (b := q.nibbles)
  le_antisymm _ _ h h' := nibbles_injective (le_antisymm h h')
  le_total p q := le_total p.nibbles q.nibbles
  toDecidableLE p q := inferInstanceAs (Decidable (p.nibbles ≤ q.nibbles))
  toDecidableLT p q := inferInstanceAs (Decidable (p.nibbles < q.nibbles))
  toDecidableEq := inferInstance

def len (p : Nibbles) : ℕ := p.nibbles.length

def isEmpty (p : Nibbles) : Bool := p.nibbles.isEmpty

def first (p : Nibbles) : Option (Fin 16) := p.nibbles.head?

theorem first_eq_none_iff (p : Nibbles) : p.first = none ↔ p.isEmpty := by
  cases p with | mk l h => cases l <;> simp [first,isEmpty]

end Nibbles

/-- A stored branch node: which children exist, which are branches in the trie tables, which are
hashed, the hashes of the latter in child order, and the hash of a root node. -/
structure BranchNodeCompact where
  stateMask : UInt16
  treeMask : UInt16
  hashMask : UInt16
  hashes : List B256
  rootHash : Option B256
  deriving DecidableEq

/-- An emitted node with its place: the account whose storage trie it belongs to, none for the
state trie, and its path. -/
structure Node where
  hashedAddress : Option B256
  path : Nibbles
  node : BranchNodeCompact
  deriving DecidableEq

abbrev NodeKey := Option B256 × Nibbles

namespace Node

def key (n : Node) : NodeKey := (n.hashedAddress,n.path)

/-- The node as a binding of its key. -/
def binding (n : Node) : NodeKey × BranchNodeCompact := (n.key,n.node)

@[simp] theorem binding_fst (n : Node) : n.binding.1 = n.key := rfl
@[simp] theorem binding_snd (n : Node) : n.binding.2 = n.node := rfl

theorem binding_injective : Function.Injective Node.binding := by
  rintro ⟨a,p,b⟩ ⟨a',p',b'⟩ h
  simpa [binding,key,and_assoc] using h

theorem map_fst_binding (ns : List Node) : (ns.map Node.binding).map Prod.fst = ns.map Node.key := by
  simp [List.map_map,Function.comp_def]

end Node
end TrieRebuild
