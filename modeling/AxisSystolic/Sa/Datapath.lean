import AxisSystolic.Sa.Array
import AxisSystolic.Sync.Frames

/-!
# What the registers of the array hold

The array moves only in the cycles with `en_mac` high.  Let `h` be the history
of what the source offered in those cycles, newest first (`history`).  Then
every operand, product and delayed control bit is a fixed entry of `h`:

* `xo[r][c]` and `ko[r][c]` come from entry `r + c`,
* the product at stage `n` of the multiplier of `(r, c)` from entry `r + c + n`,
* `valid[n+1]` and `vlast[n+1]` from entry `n`, `a_valid[d]` from entry
  `LM + LA + d - 1`

(`Aligned`).  The accumulators follow too, as long as no stalled cycle changes
`m_first`, which the source updates without looking at `en_mac` (`FirstOk`,
`Accumulated`): stage `n` of the accumulator of `(r, c)` holds the sum over the
current frame of the history `r + c + LM + n` entries ago.
-/

namespace AxisSystolic

open Sync

variable {p : SaParams}

/-- What the delay lines hold after reset. -/
def idleBeat (p : SaParams) : Beat p := ⟨false, false, fun _ => 0, fun _ => 0⟩

@[simp] theorem idleBeat_sValid : (idleBeat p).sValid = false := rfl

namespace Beat

/-- The beat ends a packet. -/
def isEnd (b : Beat p) : Bool := b.sValid && b.sLast

/-- The operands of the element `(r, c)`: its column is fed the reversed `k`. -/
def xAt (b : Beat p) (r : ℕ) : BitVec p.WX := lane b.sx r
def kAt (b : Beat p) (c : ℕ) : BitVec p.WK := lane b.sk (p.C - 1 - c)

def prodAt (b : Beat p) (r c : ℕ) : BitVec (p.WX + p.WK) := Mac.product (b.xAt r) (b.kAt c)

/-- The product as it enters the accumulator of `(r, c)`. -/
def termAt (b : Beat p) (r c : ℕ) : BitVec p.WY := (b.prodAt r c).signExtend p.WY

end Beat

@[simp] theorem idleBeat_xAt (r : ℕ) : (idleBeat p).xAt r = 0 := lane_zero r
@[simp] theorem idleBeat_kAt (c : ℕ) : (idleBeat p).kAt c = 0 := lane_zero _

@[simp] theorem idleBeat_prodAt (r c : ℕ) : (idleBeat p).prodAt r c = 0 := by
  rw [Beat.prodAt, idleBeat_xAt, idleBeat_kAt, Mac.product]
  simp [BitVec.signExtend]

/-- Entry `n` of a history. -/
def entry (h : List (Beat p)) (n : ℕ) : Beat p := nth (idleBeat p) h n

@[simp] theorem entry_zero (b : Beat p) (h : List (Beat p)) : entry (b :: h) 0 = b := rfl
@[simp] theorem entry_succ (b : Beat p) (h : List (Beat p)) (n : ℕ) :
    entry (b :: h) (n + 1) = entry h n := rfl

/-! ### The history -/

namespace AxisSa

/-- What a cycle shifts into the array. -/
def moved (s : AxisSa p) (i : SaIn p) : Option (Beat p) :=
  if s.enMac i then some i.toBeat else none

theorem moved_of_enMac {s : AxisSa p} {i : SaIn p} (h : s.enMac i = true) :
    s.moved i = some i.toBeat := if_pos h

theorem moved_of_stall {s : AxisSa p} {i : SaIn p} (h : s.enMac i = false) :
    s.moved i = none := if_neg (by simp [h])

end AxisSa

/-- What was shifted into the array before cycle `t`, newest first. -/
def history (p : SaParams) (u : ℕ → SaIn p) (t : ℕ) : List (Beat p) :=
  (axisSa p).past u AxisSa.moved t

/-! ### The delay lines and the operands -/

/-- Every register of the delay lines and of the operand paths is an entry of
the history `h`. -/
structure Aligned (s : AxisSa p) (h : List (Beat p)) : Prop where
  valid : ∀ n, s.valid n = (entry h n).sValid
  vlast : ∀ n, s.vlast n = (entry h n).isEnd
  aValid : ∀ d, s.aValid d = (entry h (p.LM + p.LA + d - 1)).isEnd
  triX : ∀ r c, 1 ≤ r → s.triX r c = (entry h (r - 1)).xAt c
  triK : ∀ r c, 1 ≤ r → s.triK r c = (entry h (r - 1)).kAt c
  xo : ∀ r c, (s.pe r c).xo = (entry h (r + c)).xAt r
  ko : ∀ r c, (s.pe r c).ko = (entry h (r + c)).kAt c
  mul : ∀ r c n, tap (s.pe r c).mac.mulResult (s.pe r c).mac.mulDelay n
    = (entry h (r + c + n)).prodAt r c

theorem aligned_reset : Aligned (AxisSa.reset p) [] where
  valid _ := rfl
  vlast _ := rfl
  aValid _ := rfl
  triX r c _ := (idleBeat_xAt c).symm
  triK r c _ := (idleBeat_kAt c).symm
  xo r c := (idleBeat_xAt r).symm
  ko r c := (idleBeat_kAt c).symm
  mul r c n := by cases n <;> exact (idleBeat_prodAt r c).symm

namespace Aligned

variable {s : AxisSa p} {i : SaIn p} {h : List (Beat p)}

/-- The taps see the input in front of the history. -/
theorem validTap (ha : Aligned s h) (n : ℕ) : s.validTap i n = (entry (i.toBeat :: h) n).sValid := by
  cases n with
  | zero => rfl
  | succ n => exact ha.valid n

theorem vlastTap (ha : Aligned s h) (n : ℕ) : s.vlastTap i n = (entry (i.toBeat :: h) n).isEnd := by
  cases n with
  | zero => rfl
  | succ n => exact ha.vlast n

theorem xiDelayed (ha : Aligned s h) (r : ℕ) : s.xiDelayed i r = (entry (i.toBeat :: h) r).xAt r := by
  cases r with
  | zero => rfl
  | succ r => exact ha.triX (r + 1) (r + 1) (by omega)

theorem kiDelayed (ha : Aligned s h) (c : ℕ) : s.kiDelayed i c = (entry (i.toBeat :: h) c).kAt c := by
  cases c with
  | zero => rfl
  | succ c => exact ha.triK (c + 1) (c + 1) (by omega)

/-- **The operands of `(r, c)` are `x[r]` and `k[C-1-c]` of one beat**, the one
that entered `r + c` moves ago. -/
theorem xi (ha : Aligned s h) (r c : ℕ) : s.xi i r c = (entry (i.toBeat :: h) (r + c)).xAt r := by
  cases c with
  | zero => exact ha.xiDelayed r
  | succ c => exact ha.xo r c

theorem ki (ha : Aligned s h) (r c : ℕ) : s.ki i r c = (entry (i.toBeat :: h) (r + c)).kAt c := by
  cases r with
  | zero => rw [Nat.zero_add]; exact ha.kiDelayed c
  | succ r => rw [Nat.succ_add]; exact ha.ko r c

/-- A stalled cycle changes none of these registers. -/
theorem step_stall (ha : Aligned s h) (hen : s.enMac i = false) : Aligned (s.step i) h where
  valid n := by simpa [AxisSa.step, nDelay, hen] using ha.valid n
  vlast n := by simpa [AxisSa.step, nDelay, hen] using ha.vlast n
  aValid d := by simpa [AxisSa.step, hen] using ha.aValid d
  triX r c hr := by simpa [AxisSa.step, triStep, hen] using ha.triX r c hr
  triK r c hr := by simpa [AxisSa.step, triStep, hen] using ha.triK r c hr
  xo r c := by simpa [AxisSa.step, Pe.step, hen] using ha.xo r c
  ko r c := by simpa [AxisSa.step, Pe.step, hen] using ha.ko r c
  mul r c n := by
    rw [← ha.mul r c n]
    cases n <;> simp [AxisSa.step, Pe.step, Mac.step, nDelay, hen]

/-- A moving cycle shifts the input into all of them. -/
theorem step_move (ha : Aligned s h) (hen : s.enMac i = true) :
    Aligned (s.step i) (i.toBeat :: h) where
  valid n := by
    rw [← ha.validTap]
    simp [AxisSa.step, nDelay, hen, AxisSa.validTap]
  vlast n := by
    rw [← ha.vlastTap]
    simp [AxisSa.step, nDelay, hen, AxisSa.vlastTap]
  aValid d := by
    rw [← ha.vlastTap]
    simp [AxisSa.step, hen]
  triX r c hr := by
    obtain ⟨r, rfl⟩ : ∃ r', r = r' + 1 := ⟨r - 1, by omega⟩
    cases r with
    | zero => simp [AxisSa.step, triStep, triBuffer, hen, Beat.xAt]
    | succ r => simpa [AxisSa.step, triStep, triBuffer, hen] using ha.triX (r + 1) c (by omega)
  triK r c hr := by
    obtain ⟨r, rfl⟩ : ∃ r', r = r' + 1 := ⟨r - 1, by omega⟩
    cases r with
    | zero => simp [AxisSa.step, triStep, triBuffer, hen, Beat.kAt, AxisSa.skReversed]
    | succ r => simpa [AxisSa.step, triStep, triBuffer, hen] using ha.triK (r + 1) c (by omega)
  xo r c := by
    rw [← ha.xi r c]
    simp [AxisSa.step, Pe.step, hen]
  ko r c := by
    rw [← ha.ki r c]
    simp [AxisSa.step, Pe.step, hen]
  mul r c n := by
    cases n with
    | zero =>
      rw [Nat.add_zero, Beat.prodAt, ← ha.xi r c, ← ha.ki r c]
      simp [AxisSa.step, Pe.step, Mac.step, hen]
    | succ n =>
      rw [← Nat.add_assoc, entry_succ, ← ha.mul r c n]
      simp [AxisSa.step, Pe.step, Mac.step, nDelay, hen]

/-- The product in front of the accumulator of `(r, c)` is that of the beat
whose `s_valid` is the bit `m_valid` of the element. -/
theorem mac_m (ha : Aligned s h) (r c : ℕ) :
    (s.pe r c).mac.m p.LM = (entry (i.toBeat :: h) (p.LM + (r + c))).prodAt r c := by
  have hpos := p.LM_pos
  have hidx : p.LM + (r + c) = (r + c + (p.LM - 1)) + 1 := by omega
  rw [Mac.m, ha.mul r c, hidx, entry_succ]

end Aligned

theorem aligned_run (u : ℕ → SaIn p) (t : ℕ) :
    Aligned ((axisSa p).state u t) (history p u t) := by
  induction t with
  | zero => exact aligned_reset
  | succ t ih =>
    rw [history, Machine.past_succ, Machine.state_succ]
    cases hen : ((axisSa p).state u t).enMac (u t) with
    | false => rw [AxisSa.moved_of_stall hen]; exact ih.step_stall hen
    | true => rw [AxisSa.moved_of_enMac hen]; exact ih.step_move hen

/-! ### The accumulators -/

/-- The current frame of a history summed at `(r, c)`. -/
def accum (h : List (Beat p)) (r c : ℕ) : BitVec p.WY :=
  ((current Beat.sValid Beat.sLast h).map fun b => b.termAt r c).sum

theorem fresh_entry (h : List (Beat p)) (n : ℕ) :
    fresh Beat.sValid Beat.sLast (h.drop n)
      = if (entry h n).sValid then (entry h n).sLast
        else fresh Beat.sValid Beat.sLast (h.drop (n + 1)) :=
  fresh_drop (by exact idleBeat_sValid) h n

theorem accum_drop (h : List (Beat p)) (n r c : ℕ) :
    accum (h.drop n) r c
      = if (entry h n).sValid then
          (entry h n).termAt r c + (if fresh Beat.sValid Beat.sLast (h.drop (n + 1)) then 0
            else accum (h.drop (n + 1)) r c)
        else accum (h.drop (n + 1)) r c :=
  sum_current_drop _ (by exact idleBeat_sValid) h n

/-- A stalled cycle leaves `m_first` alone: wherever a valid beat waits at the
accumulators of a diagonal, `m_first` already holds that beat's `s_last`. -/
def FirstOk (s : AxisSa p) (i : SaIn p) : Prop :=
  s.enMac i = false →
    ∀ d < p.D, s.validTap i (p.LM + d) = true → s.mFirst d = s.vlastTap i (p.LM + d)

instance (s : AxisSa p) (i : SaIn p) : Decidable (FirstOk s i) :=
  inferInstanceAs (Decidable (_ → ∀ d < p.D, _ → _))

/-- The accumulators on the diagonals of the array hold sums over `h`. -/
structure Accumulated (s : AxisSa p) (h : List (Beat p)) : Prop where
  mFirst : ∀ d < p.D, s.mFirst d = fresh Beat.sValid Beat.sLast (h.drop (p.LM + d))
  acc : ∀ r < p.R, ∀ c < p.C, ∀ n, tap (s.pe r c).mac.aResult (s.pe r c).mac.accDelay n
    = accum (h.drop (p.LM + (r + c) + n)) r c

theorem accumulated_reset : Accumulated (AxisSa.reset p) [] where
  mFirst d _ := by simp [AxisSa.reset]
  acc r _ c _ n := by cases n <;> simp [AxisSa.reset, Pe.reset, Mac.reset, accum, current]

theorem diag_lt {r c : ℕ} (hr : r < p.R) (hc : c < p.C) : r + c < p.D := by
  rw [SaParams.D]
  omega

namespace Accumulated

variable {s : AxisSa p} {i : SaIn p} {h : List (Beat p)}

theorem step_stall (hs : Accumulated s h) (hen : s.enMac i = false) (hok : FirstOk s i) :
    Accumulated (s.step i) h where
  mFirst d hd := by
    rw [← hs.mFirst d hd]
    simp only [AxisSa.step]
    split
    · next hv => exact (hok hen d hd hv).symm
    · rfl
  acc r hr c hc n := by
    rw [← hs.acc r hr c hc n]
    cases n <;> simp [AxisSa.step, Pe.step, Mac.step, nDelay, hen]

theorem step_move (hs : Accumulated s h) (ha : Aligned s h) (hen : s.enMac i = true) :
    Accumulated (s.step i) (i.toBeat :: h) where
  mFirst d hd := by
    have hold : s.mFirst d = fresh Beat.sValid Beat.sLast ((i.toBeat :: h).drop (p.LM + d + 1)) :=
      hs.mFirst d hd
    rw [fresh_entry, ← hold]
    simp only [AxisSa.step]
    rw [ha.validTap, ha.vlastTap, Beat.isEnd]
    cases (entry (i.toBeat :: h) (p.LM + d)).sValid <;> rfl
  acc r hr c hc n := by
    cases n with
    | succ n =>
      rw [← Nat.add_assoc, List.drop_succ_cons, ← hs.acc r hr c hc n]
      simp [AxisSa.step, Pe.step, Mac.step, nDelay, hen]
    | zero =>
      have hacc : (s.pe r c).mac.aResult
          = accum ((i.toBeat :: h).drop (p.LM + (r + c) + 1)) r c := hs.acc r hr c hc 0
      have hfst : s.mFirst (r + c)
          = fresh Beat.sValid Beat.sLast ((i.toBeat :: h).drop (p.LM + (r + c) + 1)) :=
        hs.mFirst (r + c) (diag_lt hr hc)
      rw [Nat.add_zero, accum_drop, ← hfst, ← hacc]
      show (if s.enMac i && s.validTap i (p.LM + (r + c)) then
        ((s.pe r c).mac.m p.LM).signExtend p.WY
          + (if s.mFirst (r + c) then 0 else (s.pe r c).mac.aResult)
        else (s.pe r c).mac.aResult) = _
      rw [hen, Bool.true_and, ha.validTap, ha.mac_m (i := i)]
      rfl

end Accumulated

theorem accumulated_run {u : ℕ → SaIn p} {t : ℕ} (hok : (axisSa p).Obeys FirstOk u t) :
    Accumulated ((axisSa p).state u t) (history p u t) := by
  refine Machine.invariant_of_rule (P := fun n s => Accumulated s (history p u n)) hok
    accumulated_reset fun n hn ih => ?_
  rw [history, Machine.past_succ]
  cases hen : ((axisSa p).state u n).enMac (u n) with
  | false => rw [AxisSa.moved_of_stall hen]; exact ih.step_stall hen hn
  | true => rw [AxisSa.moved_of_enMac hen]; exact ih.step_move (aligned_run u n) hen

/-- The output of the accumulator of `(r, c)`. -/
theorem Accumulated.mac_y {s : AxisSa p} {h : List (Beat p)} (hs : Accumulated s h) {r c : ℕ}
    (hr : r < p.R) (hc : c < p.C) :
    (s.pe r c).mac.y p.LA = accum (h.drop (p.LM + p.LA + (r + c) - 1)) r c := by
  have hpos := p.LA_pos
  rw [Mac.y, hs.acc r hr c hc]
  congr 2
  omega

end AxisSystolic
