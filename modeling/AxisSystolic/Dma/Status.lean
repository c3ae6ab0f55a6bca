import AxisSystolic.Dma.Controller

/-!
# Completions and descriptors in the register file

What the registers say about a run, whatever software and the engines do in it
and whenever it is reset.  A `DONE` register speaks of the time since the last
write of `START`: such a write clears it, in its own cycle even against a status
pulse, and afterwards only a pulse without an error or a write of that register
sets it.  The registers of the descriptors belong to software alone.
-/

namespace AxisSystolic

open Sync

variable {p : DmaParams}

namespace Cfg

variable {s : Cfg p} {i : DmaIn p} {a : ℕ}

instance (i : DmaIn p) (a : ℕ) : Decidable (writes i a) :=
  inferInstanceAs (Decidable (_ ∧ _))

/-- A write of `START` clears `DONE`. -/
theorem step_done_of_startNext (c : Channel) (h : startNext i = true) :
    s.step i c.aDone = 0 := by
  have hw : ¬ writes i c.aDone := by
    rintro ⟨_, ha⟩
    simp only [startNext, Bool.and_eq_true, beq_iff_eq] at h
    exact c.aDone_ne_aStart (ha.symm.trans h.1.2)
  rw [step_done_of_not_writes c hw, if_pos h]

/-- Otherwise `DONE` comes from a pulse, from software, or from before. -/
theorem step_done_ne_zero {c : Channel} (h : s.step i c.aDone ≠ 0) :
    done i c = true ∨ writes i c.aDone ∨ s c.aDone ≠ 0 := by
  by_cases hw : writes i c.aDone
  · exact Or.inr (Or.inl hw)
  by_cases hd : done i c = true
  · exact Or.inl hd
  rw [step_done_of_not_writes c hw, if_neg hd] at h
  by_cases hs : startNext i = true
  · rw [if_pos hs] at h
    exact absurd rfl h
  · rw [if_neg hs] at h
    exact Or.inr (Or.inr h)

/-- A pulse is kept until `START` or `DONE` is written. -/
theorem step_done_eq_one {c : Channel} (hs : startNext i = false) (hw : ¬ writes i c.aDone)
    (h : done i c = true ∨ s c.aDone = 1) : s.step i c.aDone = 1 := by
  have hs' : ¬ startNext i = true := by simp [hs]
  rw [step_done_of_not_writes c hw, if_neg hs']
  by_cases hd : done i c = true
  · rw [if_pos hd]
  · rw [if_neg hd]
    exact h.resolve_left hd

/-- The hardware writes `START` and the `DONE` registers only. -/
def SoftwareOnly (a : ℕ) : Prop := a ≠ aStart ∧ ∀ c : Channel, a ≠ c.aDone

instance (a : ℕ) : Decidable (SoftwareOnly a) := inferInstanceAs (Decidable (_ ∧ ∀ _, _))

theorem softwareOnly_aAddr (c : Channel) : SoftwareOnly c.aAddr := by
  cases c <;> decide

theorem softwareOnly_aBytes (c : Channel) : SoftwareOnly c.aBytes := by
  cases c <;> decide

theorem step_of_softwareOnly (ha : SoftwareOnly a) (hw : ¬ writes i a) : s.step i a = s a := by
  have hne : ¬ ((i.regWrEn && decide (i.regWrAddr.toNat < 16)) = true
      ∧ a = i.regWrAddr.toNat) := by
    rintro ⟨hen, ha'⟩
    rw [Bool.and_eq_true] at hen
    exact hw ⟨hen.1, ha'.symm⟩
  rw [step, assign, if_neg hne]
  simp only [assign, ha.1, ha.2, and_false, if_false]

end Cfg

/-! ### Runs -/

section Runs

variable (v : ℕ → WithRstn (DmaIn p))

/-- The registers in cycle `t`. -/
def cfgRun (t : ℕ) : Cfg p := (dmaController p).resettable.state v t

/-- What software has written last to register `a` before cycle `t`, or zero if
it has not written it since the last reset. -/
def lastWritten (a : ℕ) : ℕ → BitVec p.axiDataWidth
  | 0 => 0
  | t + 1 =>
    if (v t).rstn = false then 0
    else if Cfg.writes (v t).val a then (v t).val.regWrData
    else lastWritten a t

variable {v}

theorem cfgRun_succ_of_rstn {t : ℕ} (h : (v t).rstn = true) :
    cfgRun v (t + 1) = (cfgRun v t).step (v t).val :=
  Machine.resettable_state_succ_of_rstn h

theorem cfgRun_succ_of_reset {t : ℕ} (h : (v t).rstn = false) : cfgRun v (t + 1) = Cfg.reset p :=
  Machine.resettable_state_succ_of_reset h

/-- A value stays the last one until the next write or reset. -/
theorem lastWritten_of_writes {a n t : ℕ} (hnt : n < t) (hrstn : (v n).rstn = true)
    (hw : Cfg.writes (v n).val a)
    (hno : ∀ m, n < m → m < t → (v m).rstn = true ∧ ¬ Cfg.writes (v m).val a) :
    lastWritten v a t = (v n).val.regWrData := by
  induction t, hnt using Nat.le_induction with
  | base =>
    unfold lastWritten
    rw [if_neg (by simp [hrstn]), if_pos hw]
  | succ t hnt ih =>
    obtain ⟨hr, hnw⟩ := hno t hnt (Nat.lt_succ_self t)
    unfold lastWritten
    rw [if_neg (by simp [hr]), if_neg hnw]
    exact ih fun m hm hlt => hno m hm (by omega)

/-- A register that is not written after a reset is zero. -/
theorem lastWritten_of_reset {a n t : ℕ} (hnt : n < t) (hrstn : (v n).rstn = false)
    (hno : ∀ m, n < m → m < t → ¬ Cfg.writes (v m).val a) : lastWritten v a t = 0 := by
  induction t, hnt using Nat.le_induction with
  | base =>
    unfold lastWritten
    rw [if_pos hrstn]
  | succ t hnt ih =>
    unfold lastWritten
    rw [if_neg (hno t hnt (Nat.lt_succ_self t)), ih fun m hm hlt => hno m hm (by omega)]
    simp

/-- A register of software holds what has been written last. -/
theorem cfgRun_eq_lastWritten {a : ℕ} (ha : Cfg.SoftwareOnly a) (hlt : a < 16) (t : ℕ) :
    cfgRun v t a = lastWritten v a t := by
  induction t with
  | zero => rfl
  | succ t ih =>
    unfold lastWritten
    cases hr : (v t).rstn with
    | false =>
      rw [cfgRun_succ_of_reset hr, if_pos rfl]
      rfl
    | true =>
      rw [cfgRun_succ_of_rstn hr, if_neg Bool.true_eq_false_eq_False]
      by_cases hw : Cfg.writes (v t).val a
      · rw [if_pos hw]
        exact Cfg.step_of_writes hlt hw
      · rw [if_neg hw, Cfg.step_of_softwareOnly ha hw]
        exact ih

/-- A completion that is recorded is younger than the last write of `START`. -/
theorem done_not_stale {c : Channel} {n t : ℕ} (hnt : n < t)
    (hs : Cfg.startNext (v n).val = true) (hd : cfgRun v t c.aDone ≠ 0) :
    ∃ m, n < m ∧ m < t ∧ (v m).rstn = true ∧
      (Cfg.done (v m).val c = true ∨ Cfg.writes (v m).val c.aDone) := by
  induction t, hnt using Nat.le_induction with
  | base =>
    cases hr : (v n).rstn with
    | false =>
      rw [cfgRun_succ_of_reset hr] at hd
      exact absurd rfl hd
    | true =>
      rw [cfgRun_succ_of_rstn hr] at hd
      exact absurd (Cfg.step_done_of_startNext c hs) hd
  | succ t hnt ih =>
    cases hr : (v t).rstn with
    | false =>
      rw [cfgRun_succ_of_reset hr] at hd
      exact absurd rfl hd
    | true =>
      rw [cfgRun_succ_of_rstn hr] at hd
      rcases Cfg.step_done_ne_zero hd with h | h | h
      · exact ⟨t, hnt, Nat.lt_succ_self t, hr, Or.inl h⟩
      · exact ⟨t, hnt, Nat.lt_succ_self t, hr, Or.inr h⟩
      · obtain ⟨m, hnm, hmt, hm⟩ := ih h
        exact ⟨m, hnm, by omega, hm⟩

/-- Cycle `n` leaves the completions of channel `c` alone. -/
def KeepsDone (c : Channel) (i : WithRstn (DmaIn p)) : Prop :=
  i.rstn = true ∧ Cfg.startNext i.val = false ∧ ¬ Cfg.writes i.val c.aDone

instance (c : Channel) (i : WithRstn (DmaIn p)) : Decidable (KeepsDone c i) :=
  inferInstanceAs (Decidable (_ ∧ _ ∧ _))

/-- A completion is not lost. -/
theorem done_not_lost {c : Channel} {m t : ℕ} (hmt : m < t) (hd : Cfg.done (v m).val c = true)
    (hkeep : ∀ n, m ≤ n → n < t → KeepsDone c (v n)) : cfgRun v t c.aDone = 1 := by
  induction t, hmt using Nat.le_induction with
  | base =>
    obtain ⟨hr, hs, hw⟩ := hkeep m le_rfl (Nat.lt_succ_self m)
    rw [cfgRun_succ_of_rstn hr]
    exact Cfg.step_done_eq_one hs hw (Or.inl hd)
  | succ t hmt ih =>
    obtain ⟨hr, hs, hw⟩ := hkeep t (by omega) (Nat.lt_succ_self t)
    rw [cfgRun_succ_of_rstn hr]
    apply Cfg.step_done_eq_one hs hw
    exact Or.inr (ih fun n hn hlt => hkeep n hn (by omega))

/-- The descriptor of a channel is what software has written last. -/
theorem desc_eq_lastWritten (c : Channel) (t : ℕ) :
    (cfgRun v t).desc c = (lastWritten v c.aBytes t).setWidth p.axiLenWidth
      ++ (lastWritten v c.aAddr t).setWidth p.addrWidth := by
  unfold Cfg.desc Cfg.len Cfg.addr
  rw [cfgRun_eq_lastWritten (Cfg.softwareOnly_aBytes c) (by cases c <;> decide),
    cfgRun_eq_lastWritten (Cfg.softwareOnly_aAddr c) (by cases c <;> decide)]

/-- **A recorded completion is not stale, a completion is not lost, and the
descriptors are what software has written last.** -/
theorem completions_recorded (p : DmaParams) (v : ℕ → WithRstn (DmaIn p)) :
    (∀ (c : Channel) (n t : ℕ), n < t → Cfg.startNext (v n).val = true →
      cfgRun v t c.aDone ≠ 0 → ∃ m, n < m ∧ m < t ∧ (v m).rstn = true ∧
        (Cfg.done (v m).val c = true ∨ Cfg.writes (v m).val c.aDone)) ∧
    (∀ (c : Channel) (m t : ℕ), m < t → Cfg.done (v m).val c = true →
      (∀ n, m ≤ n → n < t → KeepsDone c (v n)) → cfgRun v t c.aDone = 1) ∧
    ∀ (c : Channel) (t : ℕ), (cfgRun v t).desc c
      = (lastWritten v c.aBytes t).setWidth p.axiLenWidth
        ++ (lastWritten v c.aAddr t).setWidth p.addrWidth := by
  refine ⟨?_, ?_, ?_⟩
  · intro c n t hnt hs hd
    exact done_not_stale hnt hs hd
  · intro c m t hmt hd hkeep
    exact done_not_lost hmt hd hkeep
  · intro c t
    exact desc_eq_lastWritten c t

/-- A cycle with a write of a register, and with status pulses. -/
def writeCycle (reg value : BitVec 32) (status : Channel → Bool) : WithRstn (DmaIn dma32) :=
  ⟨true, ⟨true, reg, value, fun _ => false, status, fun _ => 0⟩⟩

/-- The first pulse comes with the write of `START`, the second with a write
beyond the registers. -/
def twoPulses : ℕ → WithRstn (DmaIn dma32)
  | 0 => writeCycle 2 64 fun _ => false
  | 1 => writeCycle 0 1 fun c => c == .mm2s0
  | 2 => writeCycle 18 5 fun c => c == .mm2s0
  | _ => ⟨true, ⟨false, 0, 0, fun _ => true, fun _ => false, fun _ => 0⟩⟩

theorem twoPulses_recorded :
    (∃ m, 1 < m ∧ m < 4 ∧ (twoPulses m).rstn = true ∧
      (Cfg.done (twoPulses m).val .mm2s0 = true ∨
        Cfg.writes (twoPulses m).val Channel.mm2s0.aDone)) ∧
    cfgRun twoPulses 4 Channel.mm2s0.aDone = 1 ∧
    (cfgRun twoPulses 4).desc .mm2s0 = 0#32 ++ 64#32 := by
  obtain ⟨hstale, hlost, hdesc⟩ := completions_recorded dma32 twoPulses
  refine ⟨?_, ?_, ?_⟩
  · exact hstale .mm2s0 1 4 (by decide) (by decide) (by decide)
  · exact hlost .mm2s0 2 4 (by decide) (by decide) (by decide)
  · exact (hdesc .mm2s0 4).trans (by decide)

end Runs

end AxisSystolic
