/-
The values the consensus core passes around.

Block hashes and accounts are 256-bit numbers in the node.  The election only
compares them for equality and, for hashes, by their numeric order (the tie-break
of `election::vote`), so both are `Nat`.  Vote timestamps are `uint64_t` and keep
that type: the final-vote sentinel is the largest of them, and nothing may lie
above it.  Weights are `nano::uint128_t`; they are `Nat` here, and every sum the
code accumulates goes through `add128`, which wraps at `2 ^ 128` as the machine
addition does.

The node's `std::unordered_map`s are `AList`s: one entry per key, iterated in
an order the code does not choose.  `last_blocks` keeps the key of every entry
equal to its block's hash, and `BlockMap` carries that as a field.
-/
import Mathlib

namespace Nano

/-- `nano::block_hash`.  Zero is the "no block" sentinel of `replace_by_weight`. -/
abbrev BlockHash := Nat

/-- `nano::account`.  Zero is `nano::account::null ()`. -/
abbrev Account := Nat

/-- A block as the consensus core sees it: its hash, and the work and signature
that the hash does not cover (so two blocks with one hash may still differ). -/
structure Block where
  hash : BlockHash
  body : Nat
deriving DecidableEq, Repr

/-- Addition of `nano::uint128_t`. -/
def add128 (a b : Nat) : Nat := (a + b) % 2 ^ 128

theorem add128_add128 (a b c : Nat) : add128 (add128 a b) c = add128 a (b + c) := by
  simp only [add128, Nat.mod_add_mod, Nat.add_assoc]

/-- `a + b` in `nano::uint128_t` where the machine addition does not wrap, and
`none` where it would. -/
def add128? (a b : Nat) : Option Nat := if a + b < 2 ^ 128 then some (a + b) else none

theorem add128?_of_lt {a b : Nat} (h : a + b < 2 ^ 128) : add128? a b = some (add128 a b) := by
  rw [add128?, if_pos h, add128, Nat.mod_eq_of_lt h]

/-- The timestamp of a final vote, `std::numeric_limits<uint64_t>::max ()`. -/
def finalTimestamp : UInt64 := 18446744073709551615

theorem timestamp_lt_or_eq {a b : UInt64} (h : ¬b < a) : a < b ∨ a = b := by
  rw [UInt64.lt_def, BitVec.lt_def] at *
  rcases Nat.lt_or_eq_of_le (Nat.not_lt.mp h) with h | h
  · exact .inl h
  · exact .inr (UInt64.toNat.inj h)

theorem timestamp_lt_asymm {a b : UInt64} (h : a < b) : ¬b < a :=
  fun h' => UInt64.lt_irrefl _ (UInt64.lt_trans h h')

/-- `nano::vote_info`: when the vote was recorded, its timestamp, and the block it
votes for. -/
structure VoteInfo where
  time : Int
  timestamp : UInt64
  hash : BlockHash
deriving DecidableEq, Repr

/-- `last_votes`: one entry per voter. -/
abbrev VoteMap := AList fun _ : Account => VoteInfo

/-- `m'` keeps or erases each entry of `m`; it adds or changes none. -/
def Shrinks (m m' : VoteMap) : Prop := ∀ a, m'.lookup a = m.lookup a ∨ m'.lookup a = none

theorem Shrinks.refl (m : VoteMap) : Shrinks m m := fun _ => .inl rfl

theorem Shrinks.trans {m₁ m₂ m₃ : VoteMap} (h₁ : Shrinks m₁ m₂) (h₂ : Shrinks m₂ m₃) :
    Shrinks m₁ m₃ := fun a => by
  rcases h₂ a with h | h
  · rw [h]; exact h₁ a
  · exact .inr h

/-- A `std::unordered_map<block_hash, uint128_t>` such as `last_tally`. -/
abbrev WeightMap := AList fun _ : BlockHash => Nat

/-! ### Candidate blocks -/

/-- `last_blocks`: the candidate blocks, each filed under its own hash. -/
structure BlockMap where
  map : AList fun _ : BlockHash => Block
  keyed : ∀ h b, map.lookup h = some b → b.hash = h

namespace BlockMap

instance : Membership BlockHash BlockMap := ⟨fun m h => h ∈ m.map⟩

instance (h : BlockHash) (m : BlockMap) : Decidable (h ∈ m) :=
  inferInstanceAs (Decidable (h ∈ m.map))

/-- `last_blocks.find (hash)`. -/
def find (m : BlockMap) (h : BlockHash) : Option Block := m.map.lookup h

/-- `last_blocks.size ()`. -/
def size (m : BlockMap) : Nat := m.map.keys.length

/-- `last_blocks[block->hash ()] = block`, used both by `emplace` on a fresh hash and
by the in-place replacement of `publish`. -/
def put (m : BlockMap) (b : Block) : BlockMap where
  map := m.map.insert b.hash b
  keyed h b' hb := by
    by_cases hh : h = b.hash
    · subst hh
      rw [AList.lookup_insert] at hb
      exact Option.some.inj hb ▸ rfl
    · rw [AList.lookup_insert_ne hh] at hb
      exact m.keyed h b' hb

/-- `last_blocks.erase (hash)`. -/
def erase (m : BlockMap) (h : BlockHash) : BlockMap where
  map := m.map.erase h
  keyed h' b hb := by
    by_cases hh : h' = h
    · subst hh
      rw [AList.lookup_erase] at hb
      cases hb
    · rw [AList.lookup_erase_ne hh] at hb
      exact m.keyed h' b hb

/-- A map holding one block. -/
def single (b : Block) : BlockMap := put ⟨∅, fun _ _ h => by cases h⟩ b

theorem mem_iff_find {m : BlockMap} {h : BlockHash} : h ∈ m ↔ ∃ b, m.find h = some b := by
  show h ∈ m.map ↔ _
  rw [← AList.lookup_isSome, Option.isSome_iff_exists]
  rfl

theorem hash_of_find {m : BlockMap} {h : BlockHash} {b : Block} (hb : m.find h = some b) :
    b.hash = h :=
  m.keyed h b hb

@[simp] theorem find_put (m : BlockMap) (b : Block) (h : BlockHash) :
    (m.put b).find h = if h = b.hash then some b else m.find h := by
  by_cases hh : h = b.hash
  · subst hh; simp [put, find, AList.lookup_insert]
  · simp [put, find, hh, AList.lookup_insert_ne hh]

@[simp] theorem find_erase (m : BlockMap) (h h' : BlockHash) :
    (m.erase h).find h' = if h' = h then none else m.find h' := by
  by_cases hh : h' = h
  · subst hh; simp [erase, find, AList.lookup_erase]
  · simp [erase, find, hh, AList.lookup_erase_ne hh]

theorem size_put_of_not_mem {m : BlockMap} {b : Block} (hb : b.hash ∉ m) :
    (m.put b).size = m.size + 1 := by
  have hk : b.hash ∉ m.map.keys := fun h => hb (AList.mem_keys.mpr h)
  simp [size, put, AList.keys_insert, List.erase_of_not_mem hk]

theorem size_put_of_mem {m : BlockMap} {b : Block} (hb : b.hash ∈ m) :
    (m.put b).size = m.size := by
  have hk : b.hash ∈ m.map.keys := AList.mem_keys.mp hb
  have := List.length_pos_of_mem hk
  simp only [size, put, AList.keys_insert, List.length_cons, List.length_erase_of_mem hk]
  omega

theorem find_eq_none {m : BlockMap} {h : BlockHash} : m.find h = none ↔ h ∉ m := by
  cases hf : m.find h <;> simp [mem_iff_find, hf]

theorem mem_erase {m : BlockMap} {h h' : BlockHash} : h' ∈ m.erase h ↔ h' ≠ h ∧ h' ∈ m := by
  simp only [mem_iff_find, find_erase]
  split <;> simp_all

theorem size_erase_of_mem {m : BlockMap} {h : BlockHash} (hm : h ∈ m) : (m.erase h).size + 1 = m.size := by
  have hk : h ∈ m.map.keys := AList.mem_keys.mp hm
  have := List.length_pos_of_mem hk
  simp only [size, erase, AList.keys_erase, List.length_erase_of_mem hk]
  omega

end BlockMap

end Nano
