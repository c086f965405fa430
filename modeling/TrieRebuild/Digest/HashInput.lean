import TrieRebuild.Trie.Types

/-! The bytes `NodeDigest::push` hashes for a node. No field is delimited, yet no two nodes have
the same bytes: every field but the hashes has its length fixed by what precedes it, and the
hashes are all of 32 bytes. -/
namespace TrieRebuild

/-- `Nibbles::pack`: two nibbles a byte, so a length and its odd neighbour share a byte count. -/
structure NibblePacking where
  pack : Nibbles → List UInt8
  length_pack : ∀ p, (pack p).length = (p.len+1)/2
  pack_inj : ∀ p q, p.len = q.len → pack p = pack q → p = q

/-- An optional word, zero-filled, and whether it is there. -/
def optionBytes (w : Option B256) : List UInt8 :=
  (w.getD B256.zero).bytes ++ [if w.isSome then 1 else 0]

/-- Most significant byte first. -/
def toBeBytes (m : UInt16) : List UInt8 := [(m >>> 8).toUInt8,m.toUInt8]

def maskBytes (b : BranchNodeCompact) : List UInt8 :=
  toBeBytes b.stateMask ++ (toBeBytes b.treeMask ++ toBeBytes b.hashMask)

def hashesBytes (hashes : List B256) : List UInt8 := hashes.flatMap B256.bytes

/-- The buffer that is hashed for a node. -/
def hashInput (P : NibblePacking) (n : Node) : List UInt8 :=
  optionBytes n.hashedAddress ++ (UInt8.ofNat n.path.len ::
    (P.pack n.path ++ (maskBytes n.node ++
      (hashesBytes n.node.hashes ++ optionBytes n.node.rootHash))))

@[simp] theorem length_optionBytes (w : Option B256) : (optionBytes w).length = 33 := by
  simp [optionBytes,B256.length_eq]

/-- The flag tells an absent word from the zero word. -/
theorem optionBytes_injective : Function.Injective optionBytes := by
  intro v w h
  obtain ⟨hword,hflag⟩ := List.append_inj h (by rw [B256.length_eq,B256.length_eq])
  cases v with
  | none =>
    cases w with
    | none => rfl
    | some w => simp at hflag
  | some v =>
    cases w with
    | none => simp at hflag
    | some w =>
      obtain rfl : v = w := B256.bytes_injective hword
      rfl

theorem toBeBytes_injective : Function.Injective toBeBytes := by
  intro m k h
  simp only [toBeBytes,List.cons.injEq,and_true] at h
  have hhi := congrArg UInt8.toNat h.1
  have hlo := congrArg UInt8.toNat h.2
  have hm := m.toNat_lt
  have hk := k.toNat_lt
  apply UInt16.toNat_inj.mp
  simp only [UInt16.toNat_toUInt8,UInt16.toNat_shiftRight,UInt16.toNat_ofNat,Nat.shiftRight_eq_div_pow]
    at hhi hlo
  norm_num at hhi hlo hm hk
  omega

@[simp] theorem length_maskBytes (b : BranchNodeCompact) : (maskBytes b).length = 6 := rfl

theorem maskBytes_inj {b c : BranchNodeCompact} (h : maskBytes b = maskBytes c) :
    b.stateMask = c.stateMask ∧ b.treeMask = c.treeMask ∧ b.hashMask = c.hashMask := by
  obtain ⟨hs,h⟩ := List.append_inj h rfl
  obtain ⟨ht,hh⟩ := List.append_inj h rfl
  exact ⟨toBeBytes_injective hs,toBeBytes_injective ht,toBeBytes_injective hh⟩

theorem length_hashesBytes (hashes : List B256) :
    (hashesBytes hashes).length = 32*hashes.length := by
  induction hashes with
  | nil => rfl
  | cons w hashes ih =>
    rw [hashesBytes,List.flatMap_cons,List.length_append,← hashesBytes,ih,w.length_eq,
      List.length_cons]
    omega

theorem hashesBytes_inj {v w : List B256} (hl : v.length = w.length)
    (h : hashesBytes v = hashesBytes w) : v = w := by
  induction v generalizing w with
  | nil => exact (List.length_eq_zero_iff.mp hl.symm).symm
  | cons a v ih =>
    cases w with
    | nil => simp at hl
    | cons b w =>
      rw [hashesBytes,hashesBytes,List.flatMap_cons,List.flatMap_cons] at h
      obtain ⟨hab,hvw⟩ := List.append_inj h (by rw [a.length_eq,b.length_eq])
      rw [B256.bytes_injective hab,ih (by simpa using hl) hvw]

/-- Hashes before a trailer of fixed length: the length of the whole gives their number. -/
theorem hashesBytes_append_inj {v w : List B256} {r s : List UInt8} (hr : r.length = s.length)
    (h : hashesBytes v ++ r = hashesBytes w ++ s) : v = w ∧ r = s := by
  have hlen := congrArg List.length h
  rw [List.length_append,List.length_append,length_hashesBytes,length_hashesBytes] at hlen
  obtain ⟨hv,hrs⟩ := List.append_inj h (by
    rw [length_hashesBytes,length_hashesBytes]
    omega)
  exact ⟨hashesBytes_inj (by omega) hv,hrs⟩

theorem path_len_inj {p q : Nibbles} (h : UInt8.ofNat p.len = UInt8.ofNat q.len) :
    p.len = q.len := by
  have hp : p.len ≤ 64 := p.length_le
  have hq : q.len ≤ 64 := q.length_le
  have ht := congrArg UInt8.toNat h
  simp only [UInt8.toNat_ofNat'] at ht
  omega

/-- Different nodes, or nodes in different places, have different bytes. -/
theorem hashInput_injective (P : NibblePacking) : Function.Injective (hashInput P) := by
  intro n m h
  obtain ⟨a,p,b⟩ := n
  obtain ⟨a',p',b'⟩ := m
  obtain ⟨haddr,h⟩ := List.append_inj h (by simp)
  obtain ⟨hlen,h⟩ := List.cons_eq_cons.mp h
  have hlen := path_len_inj hlen
  obtain ⟨hpack,h⟩ := List.append_inj h (by rw [P.length_pack,P.length_pack,hlen])
  obtain ⟨hmask,h⟩ := List.append_inj h (by simp)
  obtain ⟨hhashes,hroot⟩ := hashesBytes_append_inj (by simp) h
  obtain rfl := optionBytes_injective haddr
  obtain rfl := P.pack_inj p p' hlen hpack
  obtain ⟨hs,ht,hh⟩ := maskBytes_inj hmask
  obtain rfl : b = b' := by
    cases b
    cases b'
    exact BranchNodeCompact.mk.injEq .. ▸ ⟨hs,ht,hh,hhashes,optionBytes_injective hroot⟩
  rfl

/-- Two nibbles a byte, high nibble first; a last odd nibble fills the high half. -/
def packNibbles : List (Fin 16) → List UInt8
  | [] => []
  | [a] => [UInt8.ofNat (16*a)]
  | a::b::l => UInt8.ofNat (16*a+b)::packNibbles l

theorem length_packNibbles (l : List (Fin 16)) : (packNibbles l).length = (l.length+1)/2 := by
  induction l using packNibbles.induct with
  | case1 => rfl
  | case2 a => simp [packNibbles]
  | case3 a b l ih =>
    rw [packNibbles,List.length_cons,ih,List.length_cons,List.length_cons]
    omega

theorem packNibbles_inj {l m : List (Fin 16)} (hl : l.length = m.length)
    (h : packNibbles l = packNibbles m) : l = m := by
  induction l using packNibbles.induct generalizing m with
  | case1 => exact (List.length_eq_zero_iff.mp hl.symm).symm
  | case2 a =>
    obtain ⟨b,rfl⟩ := List.length_eq_one_iff.mp hl.symm
    have ht := congrArg UInt8.toNat (List.cons.inj h).1
    simp only [UInt8.toNat_ofNat'] at ht
    rw [Fin.ext (show a.val = b.val by omega)]
  | case3 a b l ih =>
    match m with
    | [] => simp at hl
    | [c] => simp at hl
    | c::d::m =>
      obtain ⟨hhead,htail⟩ := List.cons.inj h
      have ht := congrArg UInt8.toNat hhead
      simp only [UInt8.toNat_ofNat'] at ht
      rw [ih (by simpa using hl) htail,Fin.ext (show a.val = c.val by omega),
        Fin.ext (show b.val = d.val by omega)]

/-- The packing reth's nibble type documents. -/
def NibblePacking.standard : NibblePacking where
  pack p := packNibbles p.nibbles
  length_pack p := length_packNibbles p.nibbles
  pack_inj _ _ hl h := Nibbles.nibbles_injective (packNibbles_inj hl h)

end TrieRebuild
