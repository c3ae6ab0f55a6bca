import AxisSystolic.Sa.Mac
import AxisSystolic.Sync.Machine
import AxisSystolic.Sync.Restart
import Mathlib.Algebra.BigOperators.Ring.Finset
import Mathlib.Algebra.Order.BigOperators.Group.Finset
import Mathlib.Algebra.Order.Ring.Int

/-!
# What the multiply-accumulate unit computes

The unit moves in the cycles with `en` high; `enabledInputs` is the history of what
it was fed in those.  Stage `n` of the multiplier holds the product of entry `n` of
that history, and stage `n` of the accumulator the running sum `n` entries ago
(`Computes`), so the output is the running sum `LA - 1` entries ago.  The sum is over
the entries with `m_valid` from the newest one with `m_first` on, and each adds the
product of the operands `LM` entries before it.
-/

namespace AxisSystolic

open Sync

/-- The parameters of `mac`. -/
structure MacParams where
  WX : ℕ
  WK : ℕ
  WY : ℕ
  LM : ℕ
  LA : ℕ
  LM_pos : 1 ≤ LM
  LA_pos : 1 ≤ LA

/-- The width of a product. -/
def MacParams.WM (p : MacParams) : ℕ := p.WX + p.WK

/-- The inputs of a cycle. -/
structure MacIn (p : MacParams) where
  en : Bool
  mValid : Bool
  mFirst : Bool
  x : BitVec p.WX
  k : BitVec p.WK

/-- The clocked machine of `mac`. -/
def macUnit (p : MacParams) : Machine (Mac p.WX p.WK p.WY) (MacIn p) where
  reset := Mac.reset
  step s i := s.step p.LM i.en i.mValid i.mFirst i.x i.k

variable {p : MacParams}

/-- What the delay lines hold after reset. -/
def idleIn (p : MacParams) : MacIn p := ⟨true, false, false, 0, 0⟩

/-- What a cycle with `en` high feeds the unit. -/
def MacIn.enabled (i : MacIn p) : Option (MacIn p) := if i.en then some i else none

/-- What the unit was fed before cycle `t`, newest first. -/
def enabledInputs (p : MacParams) (u : ℕ → MacIn p) (t : ℕ) : List (MacIn p) :=
  (macUnit p).past u (fun _ i => i.enabled) t

/-- The signed product of the operands of an input. -/
def MacIn.prod (i : MacIn p) : ℤ := i.x.toInt * i.k.toInt

/-- What the newest entry of a history adds: the product of the operands `LM` before. -/
def addend (h : List (MacIn p)) : ℤ := (nth (idleIn p) h p.LM).prod

/-- What the accumulator holds after a history. -/
def macSum (h : List (MacIn p)) : ℤ := runningSum MacIn.mValid MacIn.mFirst addend h

/-- The entries of a history that are summed. -/
def macSummed (h : List (MacIn p)) : Finset ℕ := summed MacIn.mValid MacIn.mFirst (idleIn p) h

@[simp] theorem macSum_nil : macSum ([] : List (MacIn p)) = 0 := rfl

theorem macSum_cons (i : MacIn p) (h : List (MacIn p)) : macSum (i :: h)
    = if i.mValid then addend (i :: h) + (if i.mFirst then 0 else macSum h) else macSum h := rfl

/-- Every register is what the history `h` says. -/
structure Computes (s : Mac p.WX p.WK p.WY) (h : List (MacIn p)) : Prop where
  mul : ∀ n, (tap s.mulResult s.mulDelay n).toInt = (nth (idleIn p) h n).prod
  acc : ∀ n, tap s.aResult s.accDelay n = BitVec.ofInt p.WY (macSum (h.drop n))

theorem computes_reset : Computes (macUnit p).reset [] where
  mul n := by
    have hzero : (idleIn p).prod = 0 := by simp [MacIn.prod, idleIn]
    rw [nth_nil, hzero]
    cases n <;> simp [macUnit, Mac.reset]
  acc n := by
    rw [List.drop_nil, macSum_nil]
    cases n <;> simp [macUnit, Mac.reset]

namespace Computes

variable {s : Mac p.WX p.WK p.WY} {i : MacIn p} {h : List (MacIn p)}

/-- A cycle with `en` low changes nothing. -/
theorem step_hold (hs : Computes s h) (hen : i.en = false) : Computes ((macUnit p).step s i) h where
  mul n := by
    rw [← hs.mul n]
    cases n <;> simp [macUnit, Mac.step, nDelay, hen]
  acc n := by
    rw [← hs.acc n]
    cases n <;> simp [macUnit, Mac.step, nDelay, hen]

/-- The product that reaches the accumulator. -/
theorem m_eq (hs : Computes s h) : (s.m p.LM).signExtend p.WY = BitVec.ofInt p.WY (addend (i :: h)) := by
  have hidx : p.LM = (p.LM - 1) + 1 := (Nat.sub_add_cancel p.LM_pos).symm
  have hm : (s.m p.LM).toInt = addend (i :: h) := by
    rw [addend, hidx, nth_succ]
    exact hs.mul (p.LM - 1)
  rw [BitVec.signExtend, hm]

theorem step_enabled (hs : Computes s h) (hen : i.en = true) :
    Computes ((macUnit p).step s i) (i :: h) where
  mul n := by
    cases n with
    | zero => simpa [macUnit, Mac.step, hen, MacIn.prod] using Mac.toInt_product i.x i.k
    | succ n =>
      rw [nth_succ, ← hs.mul n]
      simp [macUnit, Mac.step, nDelay, hen]
  acc n := by
    cases n with
    | succ n =>
      rw [List.drop_succ_cons, ← hs.acc n]
      simp [macUnit, Mac.step, nDelay, hen]
    | zero =>
      have hacc : s.aResult = BitVec.ofInt p.WY (macSum h) := hs.acc 0
      rw [List.drop_zero, macSum_cons]
      show (if i.en && i.mValid then (s.m p.LM).signExtend p.WY + (if i.mFirst then 0 else s.aResult)
        else s.aResult) = _
      rw [hen, Bool.true_and, hs.m_eq (i := i), hacc]
      cases i.mValid with
      | false => rfl
      | true =>
        cases i.mFirst with
        | false => exact (BitVec.ofInt_add _ _).symm
        | true => simp

end Computes

theorem computes_run (u : ℕ → MacIn p) (t : ℕ) :
    Computes ((macUnit p).state u t) (enabledInputs p u t) := by
  induction t with
  | zero => exact computes_reset
  | succ t ih =>
    rw [enabledInputs, Machine.past_succ, Machine.state_succ]
    cases hen : (u t).en with
    | false => rw [MacIn.enabled, hen]; exact ih.step_hold hen
    | true => rw [MacIn.enabled, hen]; exact ih.step_enabled hen

/-! ### The output -/

theorem addend_drop (h : List (MacIn p)) (n : ℕ) :
    addend (h.drop n) = (nth (idleIn p) h (n + p.LM)).prod := by
  rw [addend, nth, nth, List.getD_eq_getElem?_getD, List.getD_eq_getElem?_getD, List.getElem?_drop]

theorem macSum_eq (h : List (MacIn p)) :
    macSum h = ∑ n ∈ macSummed h, (nth (idleIn p) h (n + p.LM)).prod := by
  rw [macSum, runningSum_eq (idleIn p)]
  exact Finset.sum_congr rfl fun n _ => addend_drop h n

/-- A product is at most a quarter of its range. -/
theorem abs_four_mul_prod_le (i : MacIn p) : |4 * i.prod| ≤ 2 ^ p.WM := by
  have hsplit : 4 * i.prod = 2 * i.x.toInt * (2 * i.k.toInt) := by
    rw [MacIn.prod]
    ring
  rw [hsplit, abs_mul, MacParams.WM, pow_add]
  exact mul_le_mul (Mac.abs_two_mul_toInt_le i.x) (Mac.abs_two_mul_toInt_le i.k) (abs_nonneg _)
    (by positivity)

theorem abs_four_mul_macSum_le (h : List (MacIn p)) :
    |4 * macSum h| ≤ (macSummed h).card * 2 ^ p.WM := by
  rw [macSum_eq, Finset.mul_sum]
  calc |∑ n ∈ macSummed h, 4 * (nth (idleIn p) h (n + p.LM)).prod|
      ≤ ∑ n ∈ macSummed h, |4 * (nth (idleIn p) h (n + p.LM)).prod| :=
        Finset.abs_sum_le_sum_abs _ _
    _ ≤ (macSummed h).card • 2 ^ p.WM :=
        Finset.sum_le_card_nsmul _ _ _ fun _ _ => abs_four_mul_prod_le _
    _ = (macSummed h).card * 2 ^ p.WM := nsmul_eq_mul _ _

/-- A sum of few enough products fits the accumulator. -/
theorem toInt_macSum (hw : p.WM ≤ p.WY) {h : List (MacIn p)}
    (hc : (macSummed h).card ≤ 2 ^ (p.WY - p.WM)) :
    (BitVec.ofInt p.WY (macSum h)).toInt = macSum h := by
  have hfits : |4 * macSum h| ≤ 2 ^ p.WY := by
    have hpow : (2 : ℤ) ^ p.WY = 2 ^ (p.WY - p.WM) * 2 ^ p.WM := by
      rw [← pow_add, Nat.sub_add_cancel hw]
    rw [hpow]
    refine (abs_four_mul_macSum_le h).trans (mul_le_mul_of_nonneg_right ?_ (by positivity))
    exact_mod_cast hc
  have hpos : (0 : ℤ) < 2 ^ p.WY := by positivity
  obtain ⟨hlo, hhi⟩ := abs_le.mp hfits
  rw [BitVec.toInt_ofInt]
  apply Int.bmod_eq_of_le_mul_two
  · push_cast
    omega
  · push_cast
    omega

/-- **The unit accumulates exactly.** -/
theorem mac_accumulates (u : ℕ → MacIn p) (t : ℕ) :
    let s := (macUnit p).state u t
    let h := enabledInputs p u t
    let e := h.drop (p.LA - 1)
    s.y p.LA = BitVec.ofInt p.WY (∑ n ∈ macSummed e, (nth (idleIn p) e (n + p.LM)).prod) ∧
      (∀ n, (tap s.mulResult s.mulDelay n).toInt = (nth (idleIn p) h n).prod) ∧
      (p.WM ≤ p.WY → (macSummed e).card ≤ 2 ^ (p.WY - p.WM) →
        (s.y p.LA).toInt = ∑ n ∈ macSummed e, (nth (idleIn p) e (n + p.LM)).prod) := by
  intro s h e
  have hs := computes_run u t
  have hy : s.y p.LA = BitVec.ofInt p.WY (macSum e) := hs.acc (p.LA - 1)
  rw [← macSum_eq]
  refine ⟨hy, hs.mul, ?_⟩
  intro hw hc
  rw [hy]
  exact toInt_macSum hw hc

/-- One bit more than a product of two signed nibbles. -/
def nibbles : MacParams := ⟨4, 4, 9, 2, 2, Nat.two_pos, Nat.two_pos⟩

/-- Two products of most negative operands, with a stall between them and the first
cycle that counts. -/
def extremeOperands : ℕ → MacIn nibbles := fun t =>
  [⟨true, false, false, 8, 8⟩, ⟨true, false, false, 8, 8⟩, ⟨false, true, true, 7, 7⟩,
   ⟨true, true, true, 1, 1⟩, ⟨true, true, false, 1, 1⟩, ⟨true, false, false, 0, 0⟩].getD t
    ⟨false, false, false, 0, 0⟩

theorem extremeOperands_sum : (((macUnit nibbles).state extremeOperands 6).y 2).toInt = 128 := by
  have hcard : (macSummed ((enabledInputs nibbles extremeOperands 6).drop (nibbles.LA - 1))).card
      ≤ 2 ^ (nibbles.WY - nibbles.WM) := by decide
  exact ((mac_accumulates extremeOperands 6).2.2 (by decide) hcard).trans (by decide)

end AxisSystolic
