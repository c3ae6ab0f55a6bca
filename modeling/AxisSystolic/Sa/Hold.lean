import AxisSystolic.Sa.Stream

/-!
# The output stream of the array

A beat that is offered on the `m` side stays as it is until it is taken.  The
lanes of `m_data` are output registers of the diagonals `C - 1` to `D - 1`, and
`m_last` is a register of diagonal `C - 1`, or for one column `r_valid[0]`.
From diagonal `C - 1` on `m_stall` keeps a stalled cycle from capturing, and
nothing is shifted or cleared while no beat is taken.  No rule on the packets
is needed for that.
-/

namespace AxisSystolic

open Sync

variable {p : SaParams}

namespace AxisSa

variable {s : AxisSa p} {i : SaIn p}

/-- From diagonal `C - 1` on nothing is captured while a beat waits. -/
theorem rCopy_of_stall (hv : s.mValid = true) (hr : i.mReady = false) {d : ℕ}
    (hd : p.C - 1 ≤ d) : s.rCopy i d = false := by
  have hstall : s.mStall i d = true := by simp [mStall, hd, hv, hr]
  simp [rCopy, hstall]

theorem enShift_of_stall (hr : i.mReady = false) : s.enShift i = false := by
  simp [enShift, hr]

/-- So the registers behind `m_valid`, `m_last` and `m_data` stand still. -/
theorem step_rValid_of_stall (hv : s.mValid = true) (hr : i.mReady = false) {d : ℕ}
    (hd : p.C - 1 ≤ d) : (s.step i).rValid d = s.rValid d := by
  rw [Bool.eq_iff_iff, step_rValid_of_hold (enShift_of_stall hr), rCopy_of_stall hv hr hd]
  simp

theorem step_rLast_of_stall (hv : s.mValid = true) (hr : i.mReady = false) {d : ℕ}
    (hd : p.C - 1 ≤ d) : (s.step i).rLast d = s.rLast d := by
  rcases Nat.eq_zero_or_pos d with rfl | hpos
  · -- one column: the marker is `r_valid[0]`
    rw [rLast_zero, rLast_zero]
    exact step_rValid_of_stall hv hr hd
  · rw [rLast_of_pos hpos, rLast_of_pos hpos]
    exact step_rLastReg_of_hold (enShift_of_stall hr) d

theorem step_ro_of_stall (hv : s.mValid = true) (hr : i.mReady = false) {r c : ℕ}
    (hd : p.C - 1 ≤ r + c) : ((s.step i).pe r c).ro = (s.pe r c).ro := by
  rw [step_ro, rCopy_of_stall hv hr hd, enShift_of_stall hr]
  rfl

theorem step_mValid_of_stall (hv : s.mValid = true) (hr : i.mReady = false) :
    (s.step i).mValid = true := by
  have hCD := p.C_le_D
  unfold mValid
  rw [step_rValid_of_stall hv hr (by omega)]
  exact hv

theorem step_mLast_of_stall (hv : s.mValid = true) (hr : i.mReady = false) :
    (s.step i).mLast = s.mLast :=
  step_rLast_of_stall hv hr le_rfl

theorem step_mData_of_stall (hv : s.mValid = true) (hr : i.mReady = false) :
    (s.step i).mData = s.mData := by
  funext r
  exact step_ro_of_stall hv hr (by omega)

end AxisSa

/-! ### Runs -/

/-- A beat that is not taken is offered again in the next cycle, unless the
array is reset. -/
theorem mBeat_stable (p : SaParams) (v : ℕ → WithRstn (SaIn p)) (t : ℕ)
    (hv : ((axisSa p).resettable.state v t).mValid = true) (hr : (v t).val.mReady = false)
    (hrstn : (v t).rstn = true) :
    ((axisSa p).resettable.state v (t + 1)).mValid = true ∧
      ((axisSa p).resettable.state v (t + 1)).mLast
        = ((axisSa p).resettable.state v t).mLast ∧
      ((axisSa p).resettable.state v (t + 1)).mData
        = ((axisSa p).resettable.state v t).mData := by
  rw [Machine.resettable_state_succ_of_rstn hrstn]
  refine ⟨?_, ?_, ?_⟩
  · exact AxisSa.step_mValid_of_stall hv hr
  · exact AxisSa.step_mLast_of_stall hv hr
  · exact AxisSa.step_mData_of_stall hv hr

/-- The second packet is captured on the first diagonal while a beat waits. -/
theorem overtakenSource_stable :
    let s := (axisSa oneByTwo).resettable.state fun t => ⟨true, overtakenSource t⟩
    (s 6).rCopy (overtakenSource 6) 0 = true ∧
      (s 7).mValid = true ∧ (s 7).mLast = (s 6).mLast ∧ (s 7).mData = (s 6).mData :=
  ⟨by decide, mBeat_stable oneByTwo _ 6 (by decide) rfl rfl⟩

/-- A beat is offered as long as its stall lasts. -/
theorem mBeat_waits {v : ℕ → WithRstn (SaIn p)} {t t' : ℕ} (ht : t ≤ t')
    (hv : ((axisSa p).resettable.state v t).mValid = true)
    (hstall : ∀ n, t ≤ n → n < t' → (v n).val.mReady = false ∧ (v n).rstn = true) :
    ((axisSa p).resettable.state v t').mValid = true ∧
      ((axisSa p).resettable.state v t').mLast = ((axisSa p).resettable.state v t).mLast ∧
      ((axisSa p).resettable.state v t').mData = ((axisSa p).resettable.state v t).mData := by
  induction t', ht using Nat.le_induction with
  | base => exact ⟨hv, rfl, rfl⟩
  | succ n hn ih =>
    obtain ⟨hvn, hl, hd⟩ := ih fun m hm hlt => hstall m hm (by omega)
    obtain ⟨hr, hrstn⟩ := hstall n hn (Nat.lt_succ_self n)
    rw [Machine.resettable_state_succ_of_rstn hrstn]
    refine ⟨?_, ?_, ?_⟩
    · exact AxisSa.step_mValid_of_stall hvn hr
    · exact (AxisSa.step_mLast_of_stall hvn hr).trans hl
    · exact (AxisSa.step_mData_of_stall hvn hr).trans hd

end AxisSystolic
