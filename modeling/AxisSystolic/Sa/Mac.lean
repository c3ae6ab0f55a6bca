import AxisSystolic.Sync.Delay
import Mathlib.Data.BitVec
import Mathlib.Tactic.Positivity
import Mathlib.Tactic.Ring

/-!
# Multiply-accumulate unit (`n_delay.sv`, `mac.sv`)

Registers are written as the block that drives them.  A chain of registers is a
function of the position in the chain; a chain of length `N` is read at its
first `N` positions only.
-/

namespace AxisSystolic

open Sync

/-- `n_delay`: register `n` is `data[(n+1)*W +: W]` of the source, and
`tap i data n` is `data[n*W +: W]`, so the output `o` of a delay of `N` is
`tap i data N`, for `N = 0` the input itself. -/
def nDelay {α : Type*} (e : Bool) (i : α) (data : ℕ → α) : ℕ → α :=
  fun n => if e then tap i data n else data n

/-- The registers of `mac`. -/
structure Mac (WX WK WY : ℕ) where
  mulResult : BitVec (WX + WK)
  mulDelay : ℕ → BitVec (WX + WK)
  aResult : BitVec WY
  accDelay : ℕ → BitVec WY

namespace Mac

variable {WX WK WY : ℕ}

/-- `rstn` low. -/
def reset : Mac WX WK WY where
  mulResult := 0
  mulDelay := fun _ => 0
  aResult := 0
  accDelay := fun _ => 0

/-- The product that reaches the accumulator, the output of `mul_delay`. -/
def m (LM : ℕ) (s : Mac WX WK WY) : BitVec (WX + WK) := tap s.mulResult s.mulDelay (LM - 1)

/-- The output of the unit, the output of `acc_delay`. -/
def y (LA : ℕ) (s : Mac WX WK WY) : BitVec WY := tap s.aResult s.accDelay (LA - 1)

/-- The signed product in `WM = WX + WK` bits. -/
def product (x : BitVec WX) (k : BitVec WK) : BitVec (WX + WK) :=
  x.signExtend (WX + WK) * k.signExtend (WX + WK)

def step (LM : ℕ) (en mValid mFirst : Bool) (x : BitVec WX) (k : BitVec WK)
    (s : Mac WX WK WY) : Mac WX WK WY where
  mulResult := if en then product x k else s.mulResult
  mulDelay := nDelay en s.mulResult s.mulDelay
  aResult :=
    if en && mValid then (s.m LM).signExtend WY + (if mFirst then 0 else s.aResult)
    else s.aResult
  accDelay := nDelay en s.aResult s.accDelay

/-- A signed word is at most half of its range in absolute value. -/
theorem abs_two_mul_toInt_le {w : ℕ} (x : BitVec w) : |2 * x.toInt| ≤ 2 ^ w :=
  abs_le.mpr ⟨BitVec.le_two_mul_toInt, BitVec.two_mul_toInt_lt.le⟩

/-- **No product overflows its register.** -/
theorem toInt_product (x : BitVec WX) (k : BitVec WK) :
    (product x k).toInt = x.toInt * k.toInt := by
  have hprod : |2 * x.toInt * (2 * k.toInt)| ≤ 2 ^ (WX + WK) := by
    rw [abs_mul, pow_add]
    exact mul_le_mul (abs_two_mul_toInt_le x) (abs_two_mul_toInt_le k) (abs_nonneg _) (by positivity)
  have hpos : (0 : ℤ) < 2 ^ (WX + WK) := by positivity
  obtain ⟨hlo, hhi⟩ := abs_le.mp hprod
  have hmul : 2 * x.toInt * (2 * k.toInt) = 4 * (x.toInt * k.toInt) := by ring
  rw [product, BitVec.toInt_mul, BitVec.toInt_signExtend_of_le (by omega),
    BitVec.toInt_signExtend_of_le (by omega)]
  apply Int.bmod_eq_of_le_mul_two
  · push_cast
    omega
  · push_cast
    omega

/-- A product of the accumulator's width is the exact product, wrapped. -/
theorem signExtend_product (x : BitVec WX) (k : BitVec WK) :
    (product x k).signExtend WY = BitVec.ofInt WY (x.toInt * k.toInt) := by
  rw [BitVec.signExtend, toInt_product]

end Mac

end AxisSystolic
