import Mathlib.Data.BitVec

/-!
# A ring of places with two pointers

A ring has `2 ^ w` places, and its pointers have one bit more than a place needs, so that
a full ring is told from an empty one.  What it holds is what has been put in and not yet
taken out, the oldest first (`items_put`, `items_take`).
-/

namespace Sync

/-- A counter that has not run down is not below one. -/
theorem toNat_sub_one {w : ℕ} {x : BitVec w} (h : x ≠ 0) : (x - 1).toNat = x.toNat - 1 := by
  have hpos : x.toNat ≠ 0 := fun h0 => h (BitVec.eq_of_toNat_eq h0)
  have hlt := x.isLt
  have hone : (1 : BitVec w).toNat = 1 := Nat.mod_eq_of_lt (show 1 < 2 ^ w by omega)
  rw [BitVec.toNat_sub_of_le, hone]
  rw [BitVec.le_def, hone]
  omega

/-- The places of a ring, and the pointers to the next one to write and the next one to read. -/
structure Ring (w : ℕ) (α : Type*) where
  places : BitVec w → α
  wrPtr : BitVec (w + 1)
  rdPtr : BitVec (w + 1)

namespace Ring

variable {w : ℕ} {α : Type*} (g : Ring w α)

/-- The number of places in use. -/
def count : ℕ := (g.wrPtr - g.rdPtr).toNat

/-- The place `k` behind the next one to read. -/
def ahead (k : ℕ) : α := g.places ((g.rdPtr + BitVec.ofNat (w + 1) k).setWidth w)

/-- What is held, the oldest first. -/
def items : List α := (List.range g.count).map g.ahead

def put (a : α) : Ring w α where
  places x := if x = g.wrPtr.setWidth w then a else g.places x
  wrPtr := g.wrPtr + 1
  rdPtr := g.rdPtr

def take : Ring w α := { g with rdPtr := g.rdPtr + 1 }

variable {g}

@[simp] theorem length_items : g.items.length = g.count := by simp [items]

theorem toNat_one : (1 : BitVec (w + 1)).toNat = 1 :=
  Nat.mod_eq_of_lt (Nat.one_lt_two_pow (Nat.succ_ne_zero w))

theorem count_put (a : α) (h : g.count < 2 ^ w) : (g.put a).count = g.count + 1 := by
  have hpow : 2 ^ (w + 1) = 2 * 2 ^ w := Nat.pow_succ'
  have hsub : g.wrPtr + 1 - g.rdPtr = (g.wrPtr - g.rdPtr) + 1 := by
    rw [BitVec.sub_eq_add_neg, BitVec.sub_eq_add_neg, BitVec.add_assoc, BitVec.add_assoc,
      BitVec.add_comm 1]
  rw [count] at h
  rw [count, put, hsub, BitVec.toNat_add, toNat_one, count]
  exact Nat.mod_eq_of_lt (by omega)

theorem count_take (h : 0 < g.count) : g.take.count + 1 = g.count := by
  have hsub : g.wrPtr - (g.rdPtr + 1) = (g.wrPtr - g.rdPtr) - 1 := by
    rw [BitVec.sub_eq_add_neg, BitVec.sub_eq_add_neg, BitVec.sub_eq_add_neg, BitVec.neg_add,
      BitVec.sub_eq_add_neg, BitVec.add_assoc]
  rw [count] at h
  have hle : (1 : BitVec (w + 1)) ≤ g.wrPtr - g.rdPtr := by
    rw [BitVec.le_def, toNat_one]
    exact h
  rw [count, take, hsub, BitVec.toNat_sub_of_le hle, toNat_one, count]
  omega

theorem count_eq_zero : g.count = 0 ↔ g.wrPtr = g.rdPtr := by
  constructor
  · intro h
    have hzero : g.wrPtr - g.rdPtr = 0 := BitVec.eq_of_toNat_eq h
    rw [← BitVec.sub_add_cancel g.wrPtr g.rdPtr, hzero]
    exact BitVec.zero_add _
  · intro h
    rw [count, h, BitVec.sub_self]
    rfl

/-- Two places that are less than the size of the ring apart are not the same. -/
theorem place_ne {x : BitVec (w + 1)} {i j : ℕ} (hij : i < j) (hj : j < i + 2 ^ w) :
    (x + BitVec.ofNat (w + 1) i).setWidth w ≠ (x + BitVec.ofNat (w + 1) j).setWidth w := by
  intro h
  have hdvd : 2 ^ w ∣ 2 ^ (w + 1) := Nat.pow_dvd_pow 2 (Nat.le_succ w)
  have hnat := congrArg BitVec.toNat h
  simp only [BitVec.toNat_setWidth, BitVec.toNat_add, BitVec.toNat_ofNat, Nat.add_mod_mod,
    Nat.mod_mod_of_dvd _ hdvd] at hnat
  have hmod : (x.toNat + i) ≡ (x.toNat + j) [MOD 2 ^ w] := hnat
  obtain ⟨c, hc⟩ := (Nat.modEq_iff_dvd' (by omega)).mp hmod
  have hsub : x.toNat + j - (x.toNat + i) = j - i := by omega
  rw [hsub] at hc
  rcases Nat.eq_zero_or_pos c with rfl | hpos
  · rw [Nat.mul_zero] at hc
    omega
  · have := Nat.le_mul_of_pos_right (2 ^ w) hpos
    omega

/-- The next place to write is behind those in use. -/
theorem wrPtr_eq : g.wrPtr = g.rdPtr + BitVec.ofNat (w + 1) g.count := by
  rw [count, BitVec.ofNat_toNat, BitVec.setWidth_eq, BitVec.add_comm, BitVec.sub_add_cancel]

theorem items_put (a : α) (h : g.count < 2 ^ w) : (g.put a).items = g.items ++ [a] := by
  have hlast : (g.put a).ahead g.count = a := by
    exact if_pos (congrArg _ (wrPtr_eq (g := g)).symm)
  have hrest : ∀ k ∈ List.range g.count, (g.put a).ahead k = g.ahead k := by
    intro k hk
    have hk' := List.mem_range.mp hk
    refine if_neg ?_
    rw [wrPtr_eq (g := g)]
    exact place_ne hk' (by omega)
  rw [items, count_put a h, List.range_succ, List.map_append, List.map_congr_left hrest,
    List.map_singleton, hlast, items]

theorem items_take (h : 0 < g.count) : g.items = g.ahead 0 :: g.take.items := by
  have hahead : ∀ k, g.take.ahead k = g.ahead (k + 1) := by
    intro k
    have hadd : g.rdPtr + 1 + BitVec.ofNat (w + 1) k = g.rdPtr + BitVec.ofNat (w + 1) (k + 1) := by
      rw [BitVec.add_assoc, Nat.add_comm k 1, BitVec.ofNat_add]
      rfl
    rw [ahead, take, hadd, ahead]
  rw [items, ← count_take h, List.range_succ_eq_map, List.map_cons, List.map_map]
  exact congrArg _ (List.map_congr_left fun k _ => (hahead k).symm)

end Ring

end Sync
