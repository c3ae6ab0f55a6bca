import AxisSystolic.Firmware.Memory
import Mathlib.Data.List.GetD

/-!
# The golden data (`golden.py`, `run_sim`)

`golden.py` writes the three matrices one behind the other, and `run_sim` reads
them in one piece into `mp->k`.  The members `x` and `k` have no gap between
them, but `a` starts at a multiple of four: the bytes of its first elements land
in the gap if the bytes of `k` and `x` do not fill it.
-/

namespace AxisSystolic

open Mem

/-- The matrices of `golden.py`, read below their bounds. -/
structure Golden where
  k : ℕ → ℕ → ℤ
  x : ℕ → ℕ → ℤ
  a : ℕ → ℕ → ℤ
  k_range : ∀ i c, -128 ≤ k i c ∧ k i c < 127
  x_range : ∀ i r, -128 ≤ x i r ∧ x i r < 127
  a_range : ∀ c r, -2147483648 ≤ a c r ∧ a c r < 2147483647

/-- The configuration with the types that `golden.py` writes. -/
def goldenConfig (R C K : ℕ) (hR : 1 ≤ R) (hC : 1 ≤ C) (hK : 1 ≤ K) : Config :=
  ⟨R, C, K, .w8, .w8, .w32, hR, hC, hK⟩

namespace Golden

variable (g : Golden) (cfg : Config)

/-- `kxa.bin`. -/
def kxaBin : List (BitVec 8) :=
  arrayBytes cfg.K cfg.C 1 (fun i c => BitVec.ofInt 8 (g.k i c))
    ++ arrayBytes cfg.K cfg.R 1 (fun i r => BitVec.ofInt 8 (g.x i r))
    ++ arrayBytes cfg.C cfg.R 4 (fun c r => BitVec.ofInt 32 (g.a c r))

end Golden

/-- `fread(ptr, 1, count, fp)` of a file. -/
def fread (m : Memory) (ptr count : ℕ) (file : List (BitVec 8)) : Memory :=
  writeBytes m ptr (file.take count)

namespace Config

variable (cfg : Config)

/-- The memory after `run_sim` has read its file. -/
def runSimRead (m : Memory) (mp : ℕ) (file : List (BitVec 8)) : Memory :=
  fread m (cfg.ptrK mp) (cfg.sizeofK + cfg.sizeofX + cfg.sizeofA) file

/-- The members hold the matrices. -/
structure Holds (m : Memory) (mp : ℕ) (g : Golden) : Prop where
  k : ∀ i < cfg.K, ∀ c < cfg.C, (cfg.kAt m mp i c).toInt = g.k i c
  x : ∀ i < cfg.K, ∀ r < cfg.R, (cfg.xAt m mp i r).toInt = g.x i r
  a : ∀ c < cfg.C, ∀ r < cfg.R, (cfg.aAt m mp c r).toInt = g.a c r

end Config

/-! ### Where the bytes land -/

section Land

variable {R C K : ℕ} {hR : 1 ≤ R} {hC : 1 ≤ C} {hK : 1 ≤ K} {m : Memory} {mp t : ℕ} {g : Golden}

theorem length_kxaBin (g : Golden) :
    (g.kxaBin (goldenConfig R C K hR hC hK)).length = K * (C * 1) + K * (R * 1) + C * (R * 4) := by
  simp only [Golden.kxaBin, List.length_append, length_arrayBytes]
  rfl

theorem ptrK_golden (mp : ℕ) : (goldenConfig R C K hR hC hK).ptrK mp = mp := by
  show mp + alignUp 1 0 = mp
  rw [alignUp_one, Nat.add_zero]

theorem ptrX_golden (mp : ℕ) : (goldenConfig R C K hR hC hK).ptrX mp = mp + K * (C * 1) := by
  show mp + alignUp 1 (alignUp 1 0 + K * (C * 1)) = _
  rw [alignUp_one, alignUp_one, Nat.zero_add]

theorem ptrA_golden (mp : ℕ) : (goldenConfig R C K hR hC hK).ptrA mp
    = mp + alignUp 4 (K * (C * 1) + K * (R * 1)) := by
  show mp + alignUp 4 (alignUp 1 (alignUp 1 0 + K * (C * 1)) + K * (R * 1)) = _
  rw [alignUp_one, alignUp_one, Nat.zero_add]

/-- The file goes into memory byte by byte. -/
theorem runSimRead_of_lt (ht : t < K * (C * 1) + K * (R * 1) + C * (R * 4)) :
    (goldenConfig R C K hR hC hK).runSimRead m mp (g.kxaBin (goldenConfig R C K hR hC hK)) (mp + t)
      = (g.kxaBin (goldenConfig R C K hR hC hK)).getD t 0 := by
  have hlength : (g.kxaBin (goldenConfig R C K hR hC hK)).length
      = K * (C * 1) + K * (R * 1) + C * (R * 4) := length_kxaBin g
  have htake : (g.kxaBin (goldenConfig R C K hR hC hK)).take
      (K * (C * 1) + K * (R * 1) + C * (R * 4)) = g.kxaBin (goldenConfig R C K hR hC hK) :=
    List.take_of_length_le hlength.le
  unfold Config.runSimRead fread
  rw [ptrK_golden]
  show writeBytes m mp (List.take (K * (C * 1) + K * (R * 1) + C * (R * 4)) _) (mp + t) = _
  rw [htake, writeBytes_of_lt (hlength ▸ ht)]

theorem kxaBin_golden (g : Golden) : g.kxaBin (goldenConfig R C K hR hC hK)
    = arrayBytes K C 1 (fun i c => BitVec.ofInt 8 (g.k i c))
      ++ arrayBytes K R 1 (fun i r => BitVec.ofInt 8 (g.x i r))
      ++ arrayBytes C R 4 (fun c r => BitVec.ofInt 32 (g.a c r)) := rfl

/-- The bytes of each matrix. -/
theorem getD_kxaBin_k (ht : t < K * (C * 1)) :
    (g.kxaBin (goldenConfig R C K hR hC hK)).getD t 0
      = (arrayBytes K C 1 fun i c => BitVec.ofInt 8 (g.k i c)).getD t 0 := by
  rw [kxaBin_golden, List.append_assoc, List.getD_append]
  rw [length_arrayBytes]
  exact ht

theorem getD_kxaBin_x (ht : t < K * (R * 1)) :
    (g.kxaBin (goldenConfig R C K hR hC hK)).getD (K * (C * 1) + t) 0
      = (arrayBytes K R 1 fun i r => BitVec.ofInt 8 (g.x i r)).getD t 0 := by
  rw [kxaBin_golden, List.append_assoc, List.getD_append_right, length_arrayBytes,
    Nat.add_sub_cancel_left, List.getD_append]
  · rw [length_arrayBytes]
    exact ht
  · rw [length_arrayBytes]
    exact Nat.le_add_right _ _

theorem getD_kxaBin_a : (g.kxaBin (goldenConfig R C K hR hC hK)).getD
      (K * (C * 1) + K * (R * 1) + t) 0
    = (arrayBytes C R 4 fun c r => BitVec.ofInt 32 (g.a c r)).getD t 0 := by
  have hkx : (arrayBytes K C 1 (fun i c => BitVec.ofInt 8 (g.k i c))
      ++ arrayBytes K R 1 (fun i r => BitVec.ofInt 8 (g.x i r))).length
      = K * (C * 1) + K * (R * 1) := by
    rw [List.length_append, length_arrayBytes, length_arrayBytes]
  rw [kxaBin_golden, List.getD_append_right, hkx, Nat.add_sub_cancel_left]
  rw [hkx]
  exact Nat.le_add_right _ _

/-! ### The members -/

theorem toInt_int8 {z : ℤ} (h : -128 ≤ z ∧ z < 127) : (BitVec.ofInt 8 z).toInt = z :=
  BitVec.toInt_ofInt_eq_self (by decide) h.1 (h.2.trans (by decide))

theorem toInt_int32 {z : ℤ} (h : -2147483648 ≤ z ∧ z < 2147483647) :
    (BitVec.ofInt 32 z).toInt = z :=
  BitVec.toInt_ofInt_eq_self (by decide) h.1 (h.2.trans (by decide))

/-- `k` and `x` are always read as they were written. -/
theorem kAt_runSimRead {i c : ℕ} (hi : i < K) (hc : c < C) :
    ((goldenConfig R C K hR hC hK).kAt ((goldenConfig R C K hR hC hK).runSimRead m mp
      (g.kxaBin (goldenConfig R C K hR hC hK))) mp i c).toInt = g.k i c := by
  have helt : (goldenConfig R C K hR hC hK).kAt ((goldenConfig R C K hR hC hK).runSimRead m mp
      (g.kxaBin (goldenConfig R C K hR hC hK))) mp i c = BitVec.ofInt 8 (g.k i c) := by
    unfold Config.kAt
    rw [ptrK_golden]
    apply element_eq (n := 1) hi hc
    intro t ht
    rw [runSimRead_of_lt (by omega), getD_kxaBin_k ht]
  rw [helt]
  exact toInt_int8 (g.k_range i c)

theorem xAt_runSimRead {i r : ℕ} (hi : i < K) (hr : r < R) :
    ((goldenConfig R C K hR hC hK).xAt ((goldenConfig R C K hR hC hK).runSimRead m mp
      (g.kxaBin (goldenConfig R C K hR hC hK))) mp i r).toInt = g.x i r := by
  have helt : (goldenConfig R C K hR hC hK).xAt ((goldenConfig R C K hR hC hK).runSimRead m mp
      (g.kxaBin (goldenConfig R C K hR hC hK))) mp i r = BitVec.ofInt 8 (g.x i r) := by
    unfold Config.xAt
    rw [ptrX_golden]
    apply element_eq (n := 1) hi hr
    intro t ht
    rw [Nat.add_assoc, runSimRead_of_lt (by omega), getD_kxaBin_x ht]
  rw [helt]
  exact toInt_int8 (g.x_range i r)

theorem dvd_iff : 4 ∣ K * (C * 1) + K * (R * 1) ↔ 4 ∣ K * (R + C) := by
  rw [Nat.mul_one, Nat.mul_one, Nat.mul_add, Nat.add_comm]

/-- `a` is, if it starts where `x` ends. -/
theorem aAt_runSimRead (h : 4 ∣ K * (R + C)) {c r : ℕ} (hc : c < C) (hr : r < R) :
    ((goldenConfig R C K hR hC hK).aAt ((goldenConfig R C K hR hC hK).runSimRead m mp
      (g.kxaBin (goldenConfig R C K hR hC hK))) mp c r).toInt = g.a c r := by
  have helt : (goldenConfig R C K hR hC hK).aAt ((goldenConfig R C K hR hC hK).runSimRead m mp
      (g.kxaBin (goldenConfig R C K hR hC hK))) mp c r = BitVec.ofInt 32 (g.a c r) := by
    unfold Config.aAt
    rw [ptrA_golden, alignUp_of_dvd (by decide) (dvd_iff.mpr h)]
    apply element_eq (n := 4) hc hr
    intro t ht
    rw [Nat.add_assoc, runSimRead_of_lt (by omega), getD_kxaBin_a]
  rw [helt]
  exact toInt_int32 (g.a_range c r)

/-- Zero matrices, but for a `1` in `a[0][0]`. -/
def unitGolden : Golden where
  k _ _ := 0
  x _ _ := 0
  a c r := if c = 0 ∧ r = 0 then 1 else 0
  k_range _ _ := by decide
  x_range _ _ := by decide
  a_range c r := by split <;> decide

/-- Byte `t` of the `1`. -/
theorem getD_arrayBytes_unit (hR : 1 ≤ R) (hC : 1 ≤ C) (ht : t < 4) :
    (arrayBytes C R 4 fun c r => BitVec.ofInt 32 (unitGolden.a c r)).getD t 0
      = byteOf (1#32) t := by
  have hget := getD_arrayBytes (f := fun c r => BitVec.ofInt 32 (unitGolden.a c r))
    (i := 0) (j := 0) hC hR ht
  rw [Nat.zero_mul, Nat.zero_add] at hget
  exact hget

theorem byteOf_one {t : ℕ} (ht : 0 < t) (h4 : t < 4) : byteOf (1#32) t = 0 := by
  have hcases : t = 1 ∨ t = 2 ∨ t = 3 := by omega
  rcases hcases with rfl | rfl | rfl <;> decide

theorem byteOf_one_zero : byteOf (1#32) 0 ≠ 0 := by decide

/-- Otherwise the low byte of `a[0][0]` lands in the gap, and a higher one in
its place. -/
theorem not_holds_unitGolden (h : ¬ 4 ∣ K * (R + C)) :
    ¬ (goldenConfig R C K hR hC hK).Holds ((goldenConfig R C K hR hC hK).runSimRead m mp
      (unitGolden.kxaBin (goldenConfig R C K hR hC hK))) mp unitGolden := by
  intro hholds
  have hle : K * (C * 1) + K * (R * 1) ≤ alignUp 4 (K * (C * 1) + K * (R * 1)) :=
    le_alignUp (by decide) _
  have hlt : alignUp 4 (K * (C * 1) + K * (R * 1)) < K * (C * 1) + K * (R * 1) + 4 :=
    alignUp_lt (by decide) _
  obtain ⟨t, ht⟩ := Nat.exists_eq_add_of_le hle
  have hpos : 0 < t := by
    rw [Nat.pos_iff_ne_zero]
    rintro rfl
    rw [Nat.add_zero] at ht
    exact h (dvd_iff.mp (ht ▸ dvd_alignUp 4 _))
  have hrow : 1 * (1 * 4) ≤ C * (R * 4) := Nat.mul_le_mul hC (Nat.mul_le_mul_right 4 hR)
  -- what is read is `1` ...
  have hone : (goldenConfig R C K hR hC hK).aAt ((goldenConfig R C K hR hC hK).runSimRead m mp
      (unitGolden.kxaBin (goldenConfig R C K hR hC hK))) mp 0 0 = 1#32 :=
    BitVec.eq_of_toInt_eq (hholds.a 0 hC 0 hR)
  -- ... so its low byte is, but that is byte `t` of the `1` in the file
  have hlow : byteOf ((goldenConfig R C K hR hC hK).aAt
      ((goldenConfig R C K hR hC hK).runSimRead m mp
        (unitGolden.kxaBin (goldenConfig R C K hR hC hK))) mp 0 0) 0 = 0 := by
    have hword : byteOf ((goldenConfig R C K hR hC hK).aAt
        ((goldenConfig R C K hR hC hK).runSimRead m mp
          (unitGolden.kxaBin (goldenConfig R C K hR hC hK))) mp 0 0) 0
        = (goldenConfig R C K hR hC hK).runSimRead m mp
          (unitGolden.kxaBin (goldenConfig R C K hR hC hK))
          ((goldenConfig R C K hR hC hK).ptrA mp + (0 * R + 0) * 4 + 0) :=
      byteOf_word (n := 4) (by decide)
    rw [hword, Nat.zero_mul, Nat.add_zero, ptrA_golden, ht,
      runSimRead_of_lt (by omega), getD_kxaBin_a, getD_arrayBytes_unit hR hC (by omega),
      byteOf_one hpos (by omega)]
  rw [hone] at hlow
  exact absurd hlow byteOf_one_zero

end Land

/-- The members hold what `golden.py` computed with, whatever it is, just if the
bytes of `k` and `x` fill whole words. -/
theorem golden_intact_iff (R C K : ℕ) (hR : 1 ≤ R) (hC : 1 ≤ C) (hK : 1 ≤ K) (m : Memory)
    (mp : ℕ) :
    (∀ g : Golden, (goldenConfig R C K hR hC hK).Holds
      ((goldenConfig R C K hR hC hK).runSimRead m mp (g.kxaBin (goldenConfig R C K hR hC hK))) mp g)
      ↔ 4 ∣ K * (R + C) := by
  constructor
  · intro hholds
    by_contra h
    exact not_holds_unitGolden h (hholds unitGolden)
  · intro h g
    exact ⟨fun i hi c hc => kAt_runSimRead hi hc, fun i hi r hr => xAt_runSimRead hi hr,
      fun c hc r hr => aAt_runSimRead h hc hr⟩

theorem golden_intact_square :
    (goldenConfig 2 2 3 (by decide) (by decide) (by decide)).Holds
      ((goldenConfig 2 2 3 (by decide) (by decide) (by decide)).runSimRead (fun _ => 0) 0
        (unitGolden.kxaBin (goldenConfig 2 2 3 (by decide) (by decide) (by decide)))) 0
      unitGolden :=
  (golden_intact_iff 2 2 3 (by decide) (by decide) (by decide) (fun _ => 0) 0).mpr (by decide)
    unitGolden

/-- One row, two columns and `K = 1`: three bytes before `a`. -/
theorem golden_not_intact : ¬ (goldenConfig 1 2 1 (by decide) (by decide) (by decide)).Holds
    ((goldenConfig 1 2 1 (by decide) (by decide) (by decide)).runSimRead (fun _ => 0) 0
      (unitGolden.kxaBin (goldenConfig 1 2 1 (by decide) (by decide) (by decide)))) 0 unitGolden :=
  not_holds_unitGolden (by decide)

end AxisSystolic
