import Mathlib.Data.BitVec

/-!
# Regions of an address space

An address space of `w` bits wraps around, so the offset of an address from a base
is its difference modulo `2 ^ w`, and every address has exactly one
(`add_offset`, `offset_add`).  The region of `n` bytes at `b` is the addresses with an
offset below `n`; it may run over the end of the address space.
-/

namespace Mem

/-- The bytes of an address space of `w` bits. -/
abbrev Space (w : ℕ) : Type := BitVec w → BitVec 8

variable {w : ℕ} {m : Space w} {a b : BitVec w} {l : List (BitVec 8)} {k n off : ℕ}

/-- The address at an offset from `b`. -/
def addr (b : BitVec w) (k : ℕ) : BitVec w := b + BitVec.ofNat w k

/-- The offset of `a` from `b`. -/
def offset (b a : BitVec w) : ℕ := (a - b).toNat

theorem offset_addr (hk : k < 2 ^ w) : offset b (addr b k) = k := by
  rw [offset, addr, add_sub_cancel_left, BitVec.toNat_ofNat, Nat.mod_eq_of_lt hk]

theorem addr_offset (b a : BitVec w) : addr b (offset b a) = a := by
  rw [offset, addr, BitVec.ofNat_toNat, BitVec.setWidth_eq, add_sub_cancel]

theorem addr_inj {k' : ℕ} (hk : k < 2 ^ w) (hk' : k' < 2 ^ w) :
    addr b k = addr b k' ↔ k = k' := by
  refine ⟨?_, congrArg (addr b)⟩
  intro h
  rw [← offset_addr (b := b) hk, ← offset_addr (b := b) hk', h]

theorem addr_addr (b : BitVec w) (off k : ℕ) : addr (addr b off) k = addr b (off + k) := by
  rw [addr, addr, addr, add_assoc, BitVec.ofNat_add]

/-- The offset from a base inside the region. -/
theorem offset_addr_addr (hk : k < 2 ^ w) (hoff : off < 2 ^ w) :
    offset (addr b off) (addr b k) = if off ≤ k then k - off else 2 ^ w - (off - k) := by
  rw [offset, addr, addr, add_sub_add_left_eq_sub, BitVec.toNat_sub, BitVec.toNat_ofNat,
    BitVec.toNat_ofNat, Nat.mod_eq_of_lt hk, Nat.mod_eq_of_lt hoff]
  split
  · rw [show 2 ^ w - off + k = k - off + 2 ^ w by omega, Nat.add_mod_right,
      Nat.mod_eq_of_lt (by omega)]
  · rw [Nat.mod_eq_of_lt (by omega)]
    omega

/-! ### Copying -/

/-- The `n` bytes at `b`. -/
def Space.load (m : Space w) (b : BitVec w) (n : ℕ) : List (BitVec 8) :=
  (List.range n).map fun k => m (addr b k)

/-- The bytes of a list are written at `b`. -/
def Space.store (m : Space w) (b : BitVec w) (l : List (BitVec 8)) : Space w :=
  fun a => l.getD (offset b a) (m a)

@[simp] theorem length_load (m : Space w) (b : BitVec w) (n : ℕ) : (m.load b n).length = n := by
  simp [Space.load]

theorem getD_load {d : BitVec 8} (hk : k < n) : (m.load b n).getD k d = m (addr b k) := by
  simp [Space.load, List.getD_eq_getElem?_getD, hk]

theorem store_of_le (h : l.length ≤ offset b a) : m.store b l a = m a := by
  rw [Space.store, List.getD_eq_getElem?_getD, List.getElem?_eq_none h, Option.getD_none]

/-- A list that is written at an offset of a region. -/
theorem store_addr (hfit : off + l.length ≤ 2 ^ w) :
    m.store (addr b off) l a
      = if off ≤ offset b a then l.getD (offset b a - off) (m a) else m a := by
  by_cases hlen : l.length = 0
  · obtain rfl := List.length_eq_zero_iff.mp hlen
    rw [store_of_le (Nat.zero_le _)]
    split <;> rfl
  have hlt : offset b a < 2 ^ w := (a - b).isLt
  have hoff := offset_addr_addr (b := b) hlt (show off < 2 ^ w by omega)
  rw [addr_offset] at hoff
  rw [Space.store, hoff]
  split
  · rfl
  · rw [List.getD_eq_getElem?_getD, List.getElem?_eq_none (by omega), Option.getD_none]

/-- A copy replaces the bytes of its range and no other. -/
theorem store_load {v : ℕ} (m' : Space v) (p : BitVec v) (hfit : off + n ≤ 2 ^ w) :
    m.store (addr b off) (m'.load p n) a
      = if off ≤ offset b a ∧ offset b a < off + n then m' (addr p (offset b a - off))
        else m a := by
  rw [store_addr (by rwa [length_load])]
  by_cases hle : off ≤ offset b a
  · rw [if_pos hle]
    by_cases hlt : offset b a < off + n
    · rw [if_pos ⟨hle, hlt⟩, getD_load (by omega)]
    · rw [if_neg fun h => hlt h.2, List.getD_eq_getElem?_getD,
        List.getElem?_eq_none (by rw [length_load]; omega), Option.getD_none]
  · rw [if_neg hle, if_neg fun h => hle h.1]

end Mem
