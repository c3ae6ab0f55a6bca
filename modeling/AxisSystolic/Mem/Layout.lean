import AxisSystolic.Mem.Word
import Mathlib.Tactic.Ring

/-!
# Arrays and structures

An array of rows lies in memory row by row, and a member of a structure at the
next multiple of its alignment (`offsets`), so there may be bytes between two
members that belong to neither.
-/

namespace Mem

variable {m : Memory} {a n rows cols i j : ℕ}

/-! ### Arrays -/

/-- The element `[i][j]` of an array at `a` with rows of `cols` elements. -/
def element (m : Memory) (a cols n i j : ℕ) : BitVec (8 * n) := word m (a + (i * cols + j) * n) n

/-- The bytes of an array. -/
def arrayBytes (rows cols n : ℕ) (f : ℕ → ℕ → BitVec (8 * n)) : List (BitVec 8) :=
  (List.range rows).flatMap fun i => (List.range cols).flatMap fun j => toBytes n (f i j)

theorem length_rowBytes (cols n : ℕ) (f : ℕ → BitVec (8 * n)) :
    ((List.range cols).flatMap fun j => toBytes n (f j)).length = cols * n := by
  simp [List.length_flatMap]

theorem length_arrayBytes (rows cols n : ℕ) (f : ℕ → ℕ → BitVec (8 * n)) :
    (arrayBytes rows cols n f).length = rows * (cols * n) := by
  simp [arrayBytes, List.length_flatMap]

theorem getD_arrayBytes {f : ℕ → ℕ → BitVec (8 * n)} {k : ℕ} (hi : i < rows) (hj : j < cols)
    (hk : k < n) :
    (arrayBytes rows cols n f).getD ((i * cols + j) * n + k) 0 = byteOf (f i j) k := by
  have hidx : (i * cols + j) * n + k = cols * n * i + (n * j + k) := by ring
  have hlt : n * j + k < cols * n := by
    have hle : (j + 1) * n ≤ cols * n := Nat.mul_le_mul_right n hj
    rw [Nat.succ_mul, Nat.mul_comm j n] at hle
    omega
  rw [List.getD_eq_getElem?_getD, arrayBytes, hidx,
    Sync.getElem?_flatMap_block (fun i => length_rowBytes cols n (f i)) _ _ hlt,
    List.getElem?_range hi, Option.bind_some,
    Sync.getElem?_flatMap_block (fun j => length_toBytes n (f i j)) _ _ hk,
    List.getElem?_range hj, Option.bind_some, toBytes, List.getElem?_map, List.getElem?_range hk]
  rfl

theorem index_lt {k : ℕ} (hi : i < rows) (hj : j < cols) (hk : k < n) :
    (i * cols + j) * n + k < rows * (cols * n) := by
  have hrow : i * cols + j < rows * cols := by
    have hle : (i + 1) * cols ≤ rows * cols := Nat.mul_le_mul_right cols hi
    rw [Nat.succ_mul] at hle
    omega
  have hle : (i * cols + j + 1) * n ≤ rows * cols * n := Nat.mul_le_mul_right n hrow
  rw [Nat.succ_mul, Nat.mul_assoc] at hle
  omega

/-- An array whose bytes are in memory is there element by element. -/
theorem element_eq {f : ℕ → ℕ → BitVec (8 * n)} (hi : i < rows) (hj : j < cols)
    (h : ∀ k < rows * (cols * n), m (a + k) = (arrayBytes rows cols n f).getD k 0) :
    element m a cols n i j = f i j := by
  apply word_eq_of_bytes
  intro k hk
  rw [Nat.add_assoc, h _ (index_lt hi hj hk)]
  exact getD_arrayBytes hi hj hk

/-! ### Structures -/

/-- The next multiple of `a`. -/
def alignUp (a o : ℕ) : ℕ := (o + a - 1) / a * a

structure Member where
  size : ℕ
  align : ℕ

/-- Where the members lie, from offset `o` on. -/
def offsets : ℕ → List Member → List ℕ
  | _, [] => []
  | o, x :: xs => alignUp x.align o :: offsets (alignUp x.align o + x.size) xs

theorem alignUp_one (o : ℕ) : alignUp 1 o = o := by simp [alignUp]

theorem alignUp_of_dvd (ha : 0 < a) {o : ℕ} (h : a ∣ o) : alignUp a o = o := by
  obtain ⟨k, rfl⟩ := h
  rw [alignUp, Nat.add_sub_assoc ha, Nat.mul_add_div ha, Nat.div_eq_of_lt (by omega),
    Nat.add_zero, Nat.mul_comm]

theorem dvd_alignUp (a o : ℕ) : a ∣ alignUp a o := Nat.dvd_mul_left a _

theorem le_alignUp (ha : 0 < a) (o : ℕ) : o ≤ alignUp a o := by
  have hdiv := Nat.div_add_mod (o + a - 1) a
  have hmod := Nat.mod_lt (o + a - 1) ha
  rw [alignUp, Nat.mul_comm]
  omega

theorem alignUp_lt (ha : 0 < a) (o : ℕ) : alignUp a o < o + a := by
  have hdiv := Nat.div_add_mod (o + a - 1) a
  rw [alignUp, Nat.mul_comm]
  omega

end Mem
