import Mathlib.Algebra.Order.Ring.Int
import Mathlib.Data.Int.GCD
import Mathlib.Tactic.Linarith

/-!
# The width adapters (`alex_axis_adapter_any.sv`, `alex_axis_adapter.sv`)

Between widths neither of which divides the other, a stream is widened to their least
common multiple and narrowed from it.  The widths are elaborated by `lcm`, once for the
data and once for the keep bits; what it computes is in `lcm_returns_lcm`.

The loop of `lcm` goes down the multiples of `x` and keeps the last one that `y` divides,
so above the least common multiple it does not matter what it holds, and below it
nothing is found.
-/

namespace AxisSystolic

/-! ### `integer` arithmetic -/

/-- A value that does not fit an `integer` wraps around. -/
def wrap32 (z : ℤ) : ℤ := z.bmod (2 ^ 32)

theorem wrap32_eq {z : ℤ} (h0 : 0 ≤ z) (h : z < 2 ^ 31) : wrap32 z = z := by
  rw [wrap32, Int.bmod_eq_iff (by decide)]
  refine ⟨by omega, by omega, ?_⟩
  rw [Int.sub_self]
  exact Int.dvd_zero _

/-- Run for long enough, the function comes to an end and has assigned `v`. -/
def Returns (f : ℕ → Option (Option ℤ)) (v : ℤ) : Prop := ∃ n, ∀ fuel ≥ n, f fuel = some (some v)

/-! ### `lcm` -/

/-- The loop from `m` on; `ret` is what has been assigned to the result.  Remainders by
zero are unknown. -/
def lcmLoop (x y : ℤ) : ℕ → ℤ → Option ℤ → Option (Option ℤ)
  | 0, _, _ => none
  | fuel + 1, m, ret =>
    if m < x then some ret
    else lcmLoop x y fuel (wrap32 (m - x)) (if y ≠ 0 ∧ m.tmod y = 0 then some m else ret)

/-- `lcm`, with a bound on the rounds of its loop. -/
def lcm (x y : ℤ) (fuel : ℕ) : Option (Option ℤ) := lcmLoop x y fuel (wrap32 (x * y)) none

variable {x y : ℤ} {ret : Option ℤ} {k fuel : ℕ}

theorem natCast_succ_mul (k : ℕ) (x : ℤ) : ((k + 1 : ℕ) : ℤ) * x = k * x + x := by
  rw [Nat.cast_succ, add_mul, one_mul]

/-- A round that is not the last one. -/
theorem lcmLoop_succ (hx : 0 < x) (hy : 0 < y) (hfit : x * y < 2 ^ 31)
    (hk : ((k + 1 : ℕ) : ℤ) ≤ y) :
    lcmLoop x y (fuel + 1) ((k + 1 : ℕ) * x) ret
      = lcmLoop x y fuel (k * x)
          (if y ∣ (k + 1 : ℕ) * x then some ((k + 1 : ℕ) * x) else ret) := by
  have hle : ((k + 1 : ℕ) : ℤ) * x ≤ x * y := by
    rw [mul_comm x y]
    exact mul_le_mul_of_nonneg_right hk hx.le
  have hsucc := natCast_succ_mul k x
  have hkx : 0 ≤ (k : ℤ) * x := mul_nonneg (Int.natCast_nonneg k) hx.le
  have hprev : ((k + 1 : ℕ) : ℤ) * x - x = k * x := by omega
  rw [lcmLoop, if_neg (by omega), hprev, wrap32_eq hkx (by omega)]
  simp only [hy.ne', ne_eq, not_false_eq_true, true_and, Int.dvd_iff_tmod_eq_zero]

/-- Below the least common multiple nothing is found. -/
theorem lcmLoop_of_lt (hx : 0 < x) (hy : 0 < y) (hfit : x * y < 2 ^ 31) (hk : (k : ℤ) ≤ y)
    (hlt : k * x < Int.lcm x y) (hfuel : k < fuel) :
    lcmLoop x y fuel (k * x) ret = some ret := by
  induction k generalizing fuel ret with
  | zero =>
    obtain ⟨n, rfl⟩ := Nat.exists_eq_add_of_le' hfuel
    rw [lcmLoop, if_pos (by rwa [Nat.cast_zero, zero_mul])]
  | succ k ih =>
    obtain ⟨n, rfl⟩ := Nat.exists_eq_add_of_le' (Nat.lt_of_le_of_lt (Nat.zero_le _) hfuel)
    have hnot : ¬y ∣ (k + 1 : ℕ) * x := by
      intro hdvd
      have hpos : 0 < ((k + 1 : ℕ) : ℤ) * x := mul_pos (by omega) hx
      exact absurd (Int.le_of_dvd hpos (Int.coe_lcm_dvd (Dvd.intro_left _ rfl) hdvd)) (by omega)
    have hsucc := natCast_succ_mul k x
    rw [lcmLoop_succ hx hy hfit hk, if_neg hnot]
    exact ih (by omega) (by omega) (by omega)

/-- From the least common multiple on it is what is found last. -/
theorem lcmLoop_of_ge (hx : 0 < x) (hy : 0 < y) (hfit : x * y < 2 ^ 31) (hk : (k : ℤ) ≤ y)
    (hge : Int.lcm x y ≤ k * x) (hfuel : k < fuel) :
    lcmLoop x y fuel (k * x) ret = some (some (Int.lcm x y : ℤ)) := by
  have hpos : 0 < (Int.lcm x y : ℤ) := Int.natCast_pos.mpr (Int.lcm_pos hx.ne' hy.ne')
  induction k generalizing fuel ret with
  | zero =>
    rw [Nat.cast_zero, zero_mul] at hge
    omega
  | succ k ih =>
    obtain ⟨n, rfl⟩ := Nat.exists_eq_add_of_le' (Nat.lt_of_le_of_lt (Nat.zero_le _) hfuel)
    have hsucc := natCast_succ_mul k x
    rw [lcmLoop_succ hx hy hfit hk]
    rcases hge.eq_or_lt with heq | hlt
    · rw [← heq, if_pos (Int.dvd_lcm_right x y)]
      exact lcmLoop_of_lt hx hy hfit (by omega) (by omega) (by omega)
    · refine ih (by omega) ?_ (by omega)
      -- the least common multiple is a multiple of `x`, so it is not passed
      obtain ⟨l, hl⟩ := Int.dvd_lcm_left x y
      rw [hl, mul_comm x l] at hlt ⊢
      have hlk : l < (k + 1 : ℕ) := lt_of_mul_lt_mul_right hlt hx.le
      exact mul_le_mul_of_nonneg_right (by omega) hx.le

/-- **`lcm` returns the least common multiple.** -/
theorem lcm_returns_lcm (hx : 0 < x) (hy : 0 < y) (hfit : x * y < 2 ^ 31) :
    Returns (lcm x y) (Int.lcm x y) := by
  refine ⟨y.toNat + 1, ?_⟩
  intro fuel hfuel
  have hyk : ((y.toNat : ℕ) : ℤ) = y := Int.toNat_of_nonneg hy.le
  have hle : (Int.lcm x y : ℤ) ≤ y * x :=
    Int.le_of_dvd (mul_pos hy hx) (Int.coe_lcm_dvd (Int.dvd_mul_left y x) (Int.dvd_mul_right y x))
  have hloop : lcmLoop x y fuel (y.toNat * x) none = some (some (Int.lcm x y : ℤ)) :=
    lcmLoop_of_ge hx hy hfit hyk.le (by rwa [hyk]) hfuel
  rw [hyk] at hloop
  rwa [lcm, wrap32_eq (mul_pos hx hy).le hfit, mul_comm x y]

/-! ### The adapters -/

/-- The segments of the wider bus. -/
structure Segments where
  segCount : ℤ
  segDataWidth : ℤ
  segKeepWidth : ℤ

/-- The parameters of `axis_adapter`. -/
structure AxisAdapter where
  sDataWidth : ℤ
  sKeepEnable : Bool
  sKeepWidth : ℤ
  mDataWidth : ℤ
  mKeepEnable : Bool
  mKeepWidth : ℤ

namespace AxisAdapter

variable (a : AxisAdapter)

def sByteLanes : ℤ := if a.sKeepEnable then a.sKeepWidth else 1

def mByteLanes : ℤ := if a.mKeepEnable then a.mKeepWidth else 1

def upsize : Segments :=
  let segCount := a.mByteLanes.tdiv a.sByteLanes
  ⟨segCount, a.mDataWidth.tdiv segCount, a.mByteLanes.tdiv segCount⟩

def downsize : Segments :=
  let segCount := a.sByteLanes.tdiv a.mByteLanes
  ⟨segCount, a.sDataWidth.tdiv segCount, a.sByteLanes.tdiv segCount⟩

/-- The branches `bypass`, `upsize` and `downsize`, the first of which has no segments. -/
def segments : Option Segments :=
  if a.mByteLanes = a.sByteLanes then none
  else if a.mByteLanes > a.sByteLanes then some a.upsize
  else some a.downsize

end AxisAdapter

/-- The parameters of `alex_axis_adapter_any`. -/
structure AdapterAny where
  sDataWidth : ℤ
  sKeepEnable : Bool
  mDataWidth : ℤ
  mKeepEnable : Bool

namespace AdapterAny

variable (p : AdapterAny)

def sKeepWidth : ℤ := p.sDataWidth.tdiv 8

def mKeepWidth : ℤ := p.mDataWidth.tdiv 8

def iDataWidth : ℕ → Option (Option ℤ) := lcm p.sDataWidth p.mDataWidth

def iKeepWidth : ℕ → Option (Option ℤ) := lcm p.sKeepWidth p.mKeepWidth

/-- `SLAVE_ADAPTER`, for intermediate widths `d` and `k`. -/
def slaveAdapter (d k : ℤ) : Option AxisAdapter :=
  if p.sDataWidth = d then none
  else some ⟨p.sDataWidth, p.sKeepEnable, p.sKeepWidth, d, true, k⟩

/-- `MASTER_ADAPTER`. -/
def masterAdapter (d k : ℤ) : Option AxisAdapter :=
  if p.mDataWidth = d then none
  else some ⟨d, true, k, p.mDataWidth, p.mKeepEnable, p.mKeepWidth⟩

/-- The widths are of whole bytes. -/
structure WholeBytes : Prop where
  sPos : 0 < p.sDataWidth
  sDvd : 8 ∣ p.sDataWidth
  mPos : 0 < p.mDataWidth
  mDvd : 8 ∣ p.mDataWidth

end AdapterAny

/-! ### Segments -/

namespace AxisAdapter

variable {a : AxisAdapter} {n w b : ℤ}

theorem upsize_eq (hb : 0 < b) (hn : n ≠ 0) (hs : a.sByteLanes = b) (hm : a.mByteLanes = n * b)
    (hd : a.mDataWidth = n * w) : a.upsize = ⟨n, w, b⟩ := by
  simp only [upsize, hs, hm, hd, Int.mul_tdiv_cancel n hb.ne', Int.mul_tdiv_cancel_left _ hn]

theorem downsize_eq (hb : 0 < b) (hn : n ≠ 0) (hm : a.mByteLanes = b) (hs : a.sByteLanes = n * b)
    (hd : a.sDataWidth = n * w) : a.downsize = ⟨n, w, b⟩ := by
  simp only [downsize, hs, hm, hd, Int.mul_tdiv_cancel n hb.ne', Int.mul_tdiv_cancel_left _ hn]

end AxisAdapter

namespace AdapterAny

variable {p : AdapterAny} {n : ℤ}

theorem WholeBytes.sKeep (h : p.WholeBytes) : p.sDataWidth = 8 * p.sKeepWidth :=
  (Int.mul_tdiv_cancel_of_dvd h.sDvd).symm

theorem WholeBytes.mKeep (h : p.WholeBytes) : p.mDataWidth = 8 * p.mKeepWidth :=
  (Int.mul_tdiv_cancel_of_dvd h.mDvd).symm

/-- An adapter to a bus `n` times as wide has `n` segments of the narrow widths. -/
theorem slaveAdapter_segments (h : p.WholeBytes) (hn : 0 < n) (hen : p.sKeepEnable = true) :
    ∀ a ∈ p.slaveAdapter (n * p.sDataWidth) (n * p.sKeepWidth),
      a.segments = some a.upsize ∧ a.upsize = ⟨n, p.sDataWidth, p.sKeepWidth⟩ := by
  intro a ha
  have hs := h.sKeep
  have hpos := h.sPos
  rw [slaveAdapter] at ha
  split at ha
  · exact nomatch ha
  · next hne =>
    obtain rfl := Option.some.inj ha
    have hlanes : p.sKeepWidth < n * p.sKeepWidth := by
      have hn1 : n ≠ 1 := fun h1 => hne (by rw [h1, one_mul])
      exact lt_mul_of_one_lt_left (by omega) (by omega)
    have hsl : (⟨p.sDataWidth, p.sKeepEnable, p.sKeepWidth, n * p.sDataWidth, true,
        n * p.sKeepWidth⟩ : AxisAdapter).sByteLanes = p.sKeepWidth := if_pos hen
    refine ⟨?_, AxisAdapter.upsize_eq (by omega) hn.ne' hsl rfl rfl⟩
    rw [AxisAdapter.segments, hsl]
    exact (if_neg hlanes.ne').trans (if_pos hlanes)

theorem masterAdapter_segments (h : p.WholeBytes) (hn : 0 < n) (hen : p.mKeepEnable = true) :
    ∀ a ∈ p.masterAdapter (n * p.mDataWidth) (n * p.mKeepWidth),
      a.segments = some a.downsize ∧ a.downsize = ⟨n, p.mDataWidth, p.mKeepWidth⟩ := by
  intro a ha
  have hm := h.mKeep
  have hpos := h.mPos
  rw [masterAdapter] at ha
  split at ha
  · exact nomatch ha
  · next hne =>
    obtain rfl := Option.some.inj ha
    have hlanes : p.mKeepWidth < n * p.mKeepWidth := by
      have hn1 : n ≠ 1 := fun h1 => hne (by rw [h1, one_mul])
      exact lt_mul_of_one_lt_left (by omega) (by omega)
    have hml : (⟨n * p.mDataWidth, true, n * p.mKeepWidth, p.mDataWidth, p.mKeepEnable,
        p.mKeepWidth⟩ : AxisAdapter).mByteLanes = p.mKeepWidth := if_pos hen
    refine ⟨?_, AxisAdapter.downsize_eq (by omega) hn.ne' hml rfl rfl⟩
    rw [AxisAdapter.segments, hml]
    exact (if_neg hlanes.ne).trans (if_neg hlanes.le.not_gt)

/-- The intermediate widths are `n` times those of either side. -/
theorem widths (h : p.WholeBytes) (hfit : p.sDataWidth * p.mDataWidth < 2 ^ 31) :
    ∃ k i j : ℤ, 0 < i ∧ 0 < j ∧ k = i * p.sKeepWidth ∧ k = j * p.mKeepWidth ∧
      Returns p.iDataWidth (8 * k) ∧ Returns p.iKeepWidth k := by
  have hs := h.sKeep
  have hm := h.mKeep
  have hspos : 0 < p.sKeepWidth := by have := h.sPos; omega
  have hmpos : 0 < p.mKeepWidth := by have := h.mPos; omega
  have hk : 0 < (Int.lcm p.sKeepWidth p.mKeepWidth : ℤ) :=
    Int.natCast_pos.mpr (Int.lcm_pos hspos.ne' hmpos.ne')
  have hdata : (Int.lcm p.sDataWidth p.mDataWidth : ℤ) = 8 * Int.lcm p.sKeepWidth p.mKeepWidth := by
    rw [hs, hm, Int.lcm_mul_left]
    rfl
  obtain ⟨i, hi⟩ := Int.dvd_lcm_left p.sKeepWidth p.mKeepWidth
  obtain ⟨j, hj⟩ := Int.dvd_lcm_right p.sKeepWidth p.mKeepWidth
  refine ⟨Int.lcm p.sKeepWidth p.mKeepWidth, i, j, ?_, ?_, ?_, ?_, ?_, ?_⟩
  · exact pos_of_mul_pos_right (hi ▸ hk) hspos.le
  · exact pos_of_mul_pos_right (hj ▸ hk) hmpos.le
  · rw [hi, mul_comm]
  · rw [hj, mul_comm]
  · rw [← hdata]
    exact lcm_returns_lcm h.sPos h.mPos hfit
  · refine lcm_returns_lcm hspos hmpos ?_
    rw [hs, hm] at hfit
    have := mul_pos hspos hmpos
    linarith [mul_mul_mul_comm 8 p.sKeepWidth 8 p.mKeepWidth]

end AdapterAny

/-- **The intermediate widths fit both sides**, for widths whose product `lcm` can form. -/
theorem adapter_widths :
    (∀ x y : ℤ, 0 < x → 0 < y → x * y < 2 ^ 31 → Returns (lcm x y) (Int.lcm x y)) ∧
    (∀ p : AdapterAny, p.WholeBytes → p.sDataWidth * p.mDataWidth < 2 ^ 31 →
      ∃ d k, Returns p.iDataWidth d ∧ Returns p.iKeepWidth k ∧
        p.sDataWidth ∣ d ∧ p.mDataWidth ∣ d ∧ d = 8 * k ∧
        d.tdiv p.sDataWidth = k.tdiv p.sKeepWidth ∧ d.tdiv p.mDataWidth = k.tdiv p.mKeepWidth ∧
        (p.sKeepEnable = true → ∀ a ∈ p.slaveAdapter d k, a.segments = some a.upsize ∧
          a.upsize = ⟨k.tdiv p.sKeepWidth, p.sDataWidth, p.sKeepWidth⟩) ∧
        (p.mKeepEnable = true → ∀ a ∈ p.masterAdapter d k, a.segments = some a.downsize ∧
          a.downsize = ⟨k.tdiv p.mKeepWidth, p.mDataWidth, p.mKeepWidth⟩)) := by
  refine ⟨fun x y hx hy => lcm_returns_lcm hx hy, ?_⟩
  intro p h hfit
  obtain ⟨k, i, j, hi, hj, hki, hkj, hdata, hkeep⟩ := p.widths h hfit
  have hdi : 8 * k = i * p.sDataWidth := by rw [hki, h.sKeep, mul_left_comm]
  have hdj : 8 * k = j * p.mDataWidth := by rw [hkj, h.mKeep, mul_left_comm]
  have hsk : p.sKeepWidth ≠ 0 := by have := h.sKeep; have := h.sPos; omega
  have hmk : p.mKeepWidth ≠ 0 := by have := h.mKeep; have := h.mPos; omega
  have hi' : k.tdiv p.sKeepWidth = i := by rw [hki, Int.mul_tdiv_cancel i hsk]
  have hj' : k.tdiv p.mKeepWidth = j := by rw [hkj, Int.mul_tdiv_cancel j hmk]
  refine ⟨8 * k, k, hdata, hkeep, ⟨i, by rw [hdi, mul_comm]⟩, ⟨j, by rw [hdj, mul_comm]⟩, rfl,
    ?_, ?_, ?_, ?_⟩
  · rw [hi', hdi, Int.mul_tdiv_cancel i h.sPos.ne']
  · rw [hj', hdj, Int.mul_tdiv_cancel j h.mPos.ne']
  · intro hen
    rw [hi', hdi]
    nth_rewrite 1 [hki]
    exact p.slaveAdapter_segments h hi hen
  · intro hen
    rw [hj', hdj]
    nth_rewrite 1 [hkj]
    exact p.masterAdapter_segments h hj hen

/-- From words of four bytes to words of three. -/
def fourToThree : AdapterAny := ⟨32, true, 24, true⟩

example : fourToThree.iDataWidth 25 = some (some 96) := by decide

theorem fourToThree_widths :
    ∃ k, Returns fourToThree.iDataWidth (8 * k) ∧ Returns fourToThree.iKeepWidth k := by
  obtain ⟨d, k, hd, hk, _, _, rfl, _⟩ :=
    adapter_widths.2 fourToThree ⟨by decide, by decide, by decide, by decide⟩ (by decide)
  exact ⟨k, hd, hk⟩

end AxisSystolic
