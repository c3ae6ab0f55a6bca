import AxisSystolic.Ibex.Bursts

/-!
# The protocol of the burst bridge, and whose errors it reports

The engine, the direction bit and the sticky error flag are shared by the reads and
the writes, and keep their values from one burst to the next.  Here bursts are
numbered by direction as they are accepted, also those of 256 beats.  The engine
serves a burst from when it leaves `idle` to when it is back (`Serves`), a burst that
is through stays through (`Through`), and the error flag is that of the burst that is
served (`errorSeen_iff`).
-/

namespace AxisSystolic

open Sync

variable {p : SaxiParams}

/-! ### The engine between two edges -/

namespace SaxiToHost

/-- The busy flag of a direction. -/
def busyOf (s : SaxiToHost p) (w : Bool) : Bool := if w then s.wrBusy else s.rdBusy

/-- A burst of a direction is accepted. -/
def okOf (s : SaxiToHost p) (i : SaxiIn p) (w : Bool) : Bool := if w then s.awOk i else s.arOk i

/-- What holds in every run whose host answers what it has granted. -/
structure Steady (s : SaxiToHost p) : Prop extends Coherent s where
  rOut : s.rvalid = true → s.engState = .waitRsp ∧ s.curIsWrite = false
  busy : s.engState ≠ .idle → s.busyOf s.curIsWrite = true

variable {s : SaxiToHost p} {i : SaxiIn p}

theorem steady_reset : (SaxiToHost.reset p).Steady where
  toCoherent := coherent_reset
  rOut h := by cases h
  busy h := absurd rfl h

theorem Steady.not_rvalid (h : s.Steady) (hs : s.engState ≠ .waitRsp) : s.rvalid = false := by
  by_contra hv
  exact hs (h.rOut (Bool.not_eq_false _ ▸ hv)).1

/-- What an edge does with the engine. -/
inductive Moves (s : SaxiToHost p) (i : SaxiIn p) : Prop
  | rests (hs : s.engState = .idle) (hs' : (s.step i).engState = .idle)
      (hi : i.dataRvalid = false)
  | begins (w : Bool) (hs : s.engState = .idle) (hs' : (s.step i).engState ≠ .idle)
      (hi : i.dataRvalid = false) (hw : (s.step i).curIsWrite = w) (hb : s.busyOf w = true)
      (hb' : (s.step i).busyOf w = true) (he : (s.step i).errorSeen = false)
  | serves (hs : s.engState ≠ .idle) (hs' : (s.step i).engState ≠ .idle)
      (hb : (s.step i).busyOf s.curIsWrite = s.busyOf s.curIsWrite)
  | ends (hs : s.engState ≠ .idle) (hs' : (s.step i).engState = .idle)
      (hb : (s.step i).busyOf s.curIsWrite = false)

theorem Steady.moves_idle (h : s.Steady) (hs : s.engState = .idle) (hi : i.dataRvalid = false) :
    s.Moves i := by
  have hv := h.not_rvalid (by simp [hs])
  rcases hwb : s.wrBusy with _ | _
  · rcases hrb : s.rdBusy with _ | _
    · have hstep := step_of_free (i := i) hs (h.rdCmd.trans hrb) (h.wrCmd.trans hwb) hv hi
      exact .rests hs (by rw [hstep]; exact hs) hi
    · have hstep := step_of_idle_read hs hrb (h.rdCmd.trans hrb) (h.wrCmd.trans hwb) hv hi
      exact .begins false hs (by simp [hstep]) hi (by rw [hstep]) hrb
        (by rw [hstep]; exact hrb) (by rw [hstep])
  · have hstep := step_of_idle_write hs hwb (h.wrCmd.trans hwb) hv hi
    exact .begins true hs (by simp [hstep]) hi (by rw [hstep]) hwb
      (by rw [hstep]; exact hwb) (by rw [hstep])

theorem Steady.moves_waitRsp (h : s.Steady) (hs : s.engState = .waitRsp)
    (hi : i.dataRvalid = true → s.waiting = true) : s.Moves i := by
  have hne : s.engState ≠ .idle := by simp [hs]
  have hstays : s.step i = { s with bvalid := s.bNext i } → s.Moves i := by
    intro hstep
    exact .serves hne (by rw [hstep]; exact hne) (by rw [hstep]; rfl)
  rcases hw : s.curIsWrite with _ | _
  · rcases hv : s.rvalid with _ | _
    · rcases hr : i.dataRvalid with _ | _
      · exact hstays (step_of_waitRsp hs hr (by simp [rHs, hv]))
      · have hstep := step_of_rdRsp hs hw hv (h.hold.trans hv) hr
        exact .serves hne (by rw [hstep]; exact hne) (by rw [hstep]; rfl)
    · have hq := quiet_of_not_waiting hi (Or.inr hv)
      rcases hr : s.rHs i with _ | _
      · exact hstays (step_of_waitRsp hs hq hr)
      · have hstep := step_of_rTaken hs hw hq hr
        by_cases hl : s.rdLen = 1#8
        · exact .ends hne (by rw [hstep]; exact if_pos hl) (by rw [hstep]; simp [busyOf, hw, hl])
        · exact .serves hne (by rw [hstep]; simp [hl]) (by rw [hstep]; simp [busyOf, hw, hl])
  · have hv : s.rvalid = false := by
      by_contra hv
      have := (h.rOut (Bool.not_eq_false _ ▸ hv)).2
      rw [hw] at this
      cases this
    rcases hr : i.dataRvalid with _ | _
    · exact hstays (step_of_waitRsp hs hr (by simp [rHs, hv]))
    · have hstep := step_of_wrAnswer hs hw hv hr
      by_cases hl : s.wrLen = 1#8
      · exact .ends hne (by rw [hstep]; exact if_pos hl) (by rw [hstep]; simp [busyOf, hw, hl])
      · exact .serves hne (by rw [hstep]; simp [hl]) (by rw [hstep]; simp [busyOf, hw, hl])

theorem Steady.moves (h : s.Steady) (hi : i.dataRvalid = true → s.waiting = true) :
    s.Moves i := by
  by_cases hwait : s.engState = .waitRsp
  · exact h.moves_waitRsp hwait hi
  have hq := quiet_of_not_waiting hi (Or.inl hwait)
  have hv := h.not_rvalid hwait
  rcases hs : s.engState with _ | _ | _ | _ | _
  case idle => exact h.moves_idle hs hq
  case wActive =>
    have hstep := step_of_wActive hs hv hq
    refine .serves (by simp [hs]) ?_ (by rw [hstep]; rfl)
    rw [hstep]
    cases s.wrDataValid <;> simp
  case rActive =>
    have hstep := step_of_rActive hs hv hq
    exact .serves (by simp [hs]) (by simp [hstep]) (by rw [hstep]; rfl)
  case issue =>
    have hstep := step_of_issue hs hv hq
    refine .serves (by simp [hs]) ?_ (by rw [hstep]; rfl)
    rw [hstep]
    cases i.dataGnt <;> simp
  case waitRsp => exact absurd hs hwait

theorem step_curIsWrite (hs : s.engState ≠ .idle) : (s.step i).curIsWrite = s.curIsWrite :=
  if_neg hs

/-- The R register is filled, or not yet taken. -/
theorem step_rvalid_eq_true (hv : (s.step i).rvalid = true) :
    s.rdRsp i = true ∨ (s.rvalid = true ∧ s.rHs i = false) := by
  rcases hr : s.rdRsp i with _ | _
  · rcases hh : s.rHs i with _ | _
    · exact Or.inr ⟨by simpa [step, hr, hh] using hv, rfl⟩
    · simp [step, hr, hh] at hv
  · exact Or.inl rfl

theorem Steady.step (h : s.Steady) (hi : i.dataRvalid = true → s.waiting = true) :
    (s.step i).Steady where
  toCoherent := h.toCoherent.step i
  rOut := by
    intro hv
    have hread : s.engState = .waitRsp ∧ s.curIsWrite = false ∧ s.rHs i = false := by
      rcases step_rvalid_eq_true hv with hr | ⟨hv, hh⟩
      · simp only [rdRsp, Bool.and_eq_true, beq_iff_eq, Bool.not_eq_true'] at hr
        exact ⟨hr.1.1.1.2, hr.1.1.1.1, by simp [rHs, hr.1.2]⟩
      · exact ⟨(h.rOut hv).1, (h.rOut hv).2, hh⟩
    obtain ⟨hs, hw, hh⟩ := hread
    refine ⟨?_, (step_curIsWrite (by simp [hs])).trans hw⟩
    simp [SaxiToHost.step, engStateN, hs, hw, hh]
  busy := by
    intro hne
    cases h.moves hi with
    | rests _ hs' => exact absurd hs' hne
    | begins w _ _ _ hw _ hb' =>
      rw [hw]
      exact hb'
    | serves hs _ hb =>
      rw [step_curIsWrite hs, hb]
      exact h.busy hs
    | ends _ hs' => exact absurd hs' hne

/-- The engine begins to wait when the host grants. -/
theorem engStateN_eq_waitRsp (hs : s.engState ≠ .waitRsp) :
    (s.engStateN i == .waitRsp) = (s.dataReq && i.dataGnt) := by
  rcases hst : s.engState with _ | _ | _ | _ | _
  case idle => cases hw : s.pickWrite <;> cases hr : s.pickRead <;>
    simp only [engStateN, dataReq, hst, hw, hr] <;> rfl
  case rActive =>
    simp only [engStateN, dataReq, hst]
    rfl
  case wActive => cases hd : s.wrDataValid <;> simp only [engStateN, dataReq, hst, hd] <;> rfl
  case issue => cases hg : i.dataGnt <;> simp only [engStateN, dataReq, hst, hg] <;> rfl
  case waitRsp => exact absurd hst hs

theorem not_waiting_of_dataReq (h : s.dataReq = true) : s.waiting = false := by
  have hs : s.engState = .issue := beq_iff_eq.mp h
  simp [waiting, hs]

/-- It waits from the grant to the answer. -/
theorem Steady.waiting_step (h : s.Steady) (hi : i.dataRvalid = true → s.waiting = true) :
    (s.step i).waiting = (s.dataReq && i.dataGnt || (s.waiting && !i.dataRvalid)) := by
  by_cases hs : s.engState = .waitRsp
  · have hreq : s.dataReq = false := by simp [dataReq, hs]
    rw [hreq, Bool.false_and, Bool.false_or]
    rcases hv : s.rvalid with _ | _
    · have hwait : s.waiting = true := by simp [waiting, hs, hv]
      rw [hwait, Bool.true_and]
      rcases hr : i.dataRvalid with _ | _
      · rw [step_of_waitRsp hs hr (by simp [rHs, hv])]
        exact hwait
      · rcases hw : s.curIsWrite with _ | _
        · rw [step_of_rdRsp hs hw hv (h.hold.trans hv) hr]
          simp [waiting]
        · rw [step_of_wrAnswer hs hw hv hr, waiting]
          by_cases hl : s.wrLen = 1#8 <;> simp [hl]
    · have hwait : s.waiting = false := by simp [waiting, hv]
      have hq := quiet_of_not_waiting hi (Or.inr hv)
      rw [hwait, Bool.false_and]
      rcases hr : s.rHs i with _ | _
      · rw [step_of_waitRsp hs hq hr]
        exact hwait
      · rw [step_of_rTaken hs (h.rOut hv).2 hq hr, waiting]
        by_cases hl : s.rdLen = 1#8 <;> simp [hl]
  · have hv := h.not_rvalid hs
    have hv' : (s.step i).rvalid = false := by simp [SaxiToHost.step, rdRsp, rHs, hs, hv]
    have hwait : s.waiting = false := by simp [waiting, hs]
    rw [hwait, Bool.false_and, Bool.or_false, waiting, hv', Bool.not_false, Bool.and_true]
    exact engStateN_eq_waitRsp hs

end SaxiToHost

/-- A burst is a write. -/
def BurstCmd.isWrite : BurstCmd p → Bool
  | .read _ => false
  | .write _ => true

/-! ### Runs -/

section Run

variable {u : ℕ → SaxiIn p}

theorem countP_ite {α : Type*} (q : α → Bool) (c : Prop) [Decidable c] (x : α) :
    (if c then [x] else []).countP q = if c ∧ q x = true then 1 else 0 := by
  by_cases hc : c <;> simp [hc, List.countP_singleton]

theorem countP_portEvents_gnt (s : SaxiToHost p) (i : SaxiIn p) :
    (s.portEvents i).countP PortEvent.isGnt = if s.dataReq && i.dataGnt then 1 else 0 := by
  simp [SaxiToHost.portEvents, List.countP_append, countP_ite, PortEvent.isGnt]

theorem countP_portEvents_rsp (s : SaxiToHost p) (i : SaxiIn p) :
    (s.portEvents i).countP PortEvent.isRsp = if i.dataRvalid then 1 else 0 := by
  simp [SaxiToHost.portEvents, List.countP_append, countP_ite, PortEvent.isRsp]

/-- The engine is steady, and waits for what is granted and not answered. -/
theorem engine_run (hhost : HostAnswers p u) (t : ℕ) : ((saxiToHost p).state u t).Steady ∧
    (portTrace p u t).countP PortEvent.isGnt = (portTrace p u t).countP PortEvent.isRsp
      + if ((saxiToHost p).state u t).waiting then 1 else 0 := by
  induction t with
  | zero => exact ⟨SaxiToHost.steady_reset, rfl⟩
  | succ t ih =>
    obtain ⟨hst, hcount⟩ := ih
    have hi : (u t).dataRvalid = true → ((saxiToHost p).state u t).waiting = true := by
      intro hr
      have hpos := hhost t hr
      rw [unanswered, hcount] at hpos
      by_contra hw
      rw [if_neg hw] at hpos
      omega
    refine ⟨hst.step hi, ?_⟩
    have hstep : ((saxiToHost p).state u (t + 1)).waiting = _ := hst.waiting_step hi
    have hquiet : ((saxiToHost p).state u t).waiting = false → (u t).dataRvalid = false := by
      intro hw
      by_contra hr
      rw [hi (Bool.not_eq_false _ ▸ hr)] at hw
      cases hw
    rw [portTrace_succ, List.countP_append, List.countP_append, countP_portEvents_gnt,
      countP_portEvents_rsp, hstep, hcount]
    rcases hreq : ((saxiToHost p).state u t).dataReq with _ | _
    · rcases hw : ((saxiToHost p).state u t).waiting with _ | _
      · simp [hquiet hw]
      · cases (u t).dataRvalid <;> simp
    · have hw := SaxiToHost.not_waiting_of_dataReq hreq
      cases (u t).dataGnt <;> simp [hw, hquiet hw]

theorem steady (hhost : HostAnswers p u) (t : ℕ) : ((saxiToHost p).state u t).Steady :=
  (engine_run hhost t).1

theorem waiting_of_rvalid (hhost : HostAnswers p u) {t : ℕ} (hr : (u t).dataRvalid = true) :
    ((saxiToHost p).state u t).waiting = true := by
  have hpos := hhost t hr
  rw [unanswered, (engine_run hhost t).2] at hpos
  by_contra hw
  rw [if_neg hw] at hpos
  omega

/-- Nothing is unanswered when the host port requests. -/
theorem unanswered_of_dataReq (hhost : HostAnswers p u) {t : ℕ}
    (hreq : ((saxiToHost p).state u t).dataReq = true) : unanswered p u t = 0 := by
  rw [unanswered, (engine_run hhost t).2, SaxiToHost.not_waiting_of_dataReq hreq]
  exact Nat.sub_self _

/-! ### Bursts by direction -/

variable (p u)

/-- The bursts of a direction that have been accepted before cycle `t`. -/
def burstNo (w : Bool) (t : ℕ) : ℕ := (accepted p u t).countP fun c => c.isWrite == w

/-- The host grants an access in cycle `t`. -/
def hostGrants (t : ℕ) : Bool := ((saxiToHost p).state u t).dataReq && (u t).dataGnt

/-- The burst of an access is the last one of its direction. -/
def accessBurst (t : ℕ) : Bool × ℕ :=
  (((saxiToHost p).state u t).dataWe, burstNo p u ((saxiToHost p).state u t).dataWe t)

/-- The burst of the last access that was granted before cycle `t`. -/
def lastBurst : ℕ → Option (Bool × ℕ)
  | 0 => none
  | t + 1 => if hostGrants p u t then some (accessBurst p u t) else lastBurst t

/-- The host has answered an access of burst `b` with an error before cycle `t`. -/
def Erred (b : Bool × ℕ) (t : ℕ) : Prop :=
  ∃ m < t, (u m).dataRvalid = true ∧ (u m).dataErr = true ∧ lastBurst p u m = some b

/-- The engine serves burst `b` in cycle `t`. -/
def Serves (b : Bool × ℕ) (t : ℕ) : Prop :=
  ((saxiToHost p).state u t).engState ≠ .idle ∧ ((saxiToHost p).state u t).curIsWrite = b.1 ∧
    burstNo p u b.1 t = b.2

/-- Burst `b` has been accepted and finished before cycle `t`. -/
def Through (b : Bool × ℕ) (t : ℕ) : Prop :=
  b.2 < burstNo p u b.1 t ∨
    burstNo p u b.1 t = b.2 ∧ ((saxiToHost p).state u t).busyOf b.1 = false

variable {p u} {b : Bool × ℕ} {t : ℕ}

theorem burstNo_succ (w : Bool) (t : ℕ) : burstNo p u w (t + 1) = burstNo p u w t
    + if ((saxiToHost p).state u t).okOf (u t) w then 1 else 0 := by
  rw [burstNo, accepted_succ, List.countP_append, ← burstNo]
  congr 1
  unfold SaxiToHost.accepts SaxiToHost.okOf
  rw [List.countP_append, countP_ite, countP_ite]
  cases w <;> simp [BurstCmd.isWrite]

/-- A busy direction accepts nothing. -/
theorem not_okOf_of_busyOf {s : SaxiToHost p} {i : SaxiIn p} {w w' : Bool}
    (h : s.busyOf w = true) : s.okOf i w' = false := by
  have hbusy : s.rdBusy = true ∨ s.wrBusy = true := by
    cases w
    · exact Or.inl h
    · exact Or.inr h
  have hok := SaxiToHost.not_ok_of_busy (i := i) hbusy
  cases w' <;> simp [SaxiToHost.okOf, hok]

theorem burstNo_succ_of_busy {w : Bool} (h : ((saxiToHost p).state u t).busyOf w = true)
    (w' : Bool) : burstNo p u w' (t + 1) = burstNo p u w' t := by
  rw [burstNo_succ, not_okOf_of_busyOf h]
  rfl

/-- Only what is accepted makes a direction busy. -/
theorem busyOf_step {s : SaxiToHost p} {i : SaxiIn p} {w : Bool} (h : s.busyOf w = false)
    (hok : s.okOf i w = false) : (s.step i).busyOf w = false := by
  cases w <;> simp_all [SaxiToHost.busyOf, SaxiToHost.okOf, SaxiToHost.step]

theorem Through.succ (h : Through p u b t) : Through p u b (t + 1) := by
  unfold Through
  rw [burstNo_succ]
  rcases h with h | ⟨h, hb⟩
  · exact Or.inl (by omega)
  · rcases hok : ((saxiToHost p).state u t).okOf (u t) b.1 with _ | _
    · exact Or.inr ⟨h, busyOf_step hb hok⟩
    · exact Or.inl (by simp [← h])

theorem Through.mono {t' : ℕ} (h : Through p u b t) (ht : t ≤ t') : Through p u b t' := by
  induction t', ht using Nat.le_induction with
  | base => exact h
  | succ t' _ ih => exact ih.succ

theorem Serves.busyOf (hhost : HostAnswers p u) (h : Serves p u b t) :
    ((saxiToHost p).state u t).busyOf b.1 = true :=
  h.2.1 ▸ (steady hhost t).busy h.1

theorem Serves.not_through (hhost : HostAnswers p u) (h : Serves p u b t) :
    ¬ Through p u b t := by
  rintro (hlt | ⟨_, hb⟩)
  · exact absurd h.2.2 (by omega)
  · rw [h.busyOf hhost] at hb
    cases hb

/-- A burst is served until it is through. -/
theorem Serves.succ (hhost : HostAnswers p u) (h : Serves p u b t) :
    Serves p u b (t + 1) ∨ Through p u b (t + 1) := by
  have hno := burstNo_succ_of_busy (h.busyOf hhost) b.1
  cases (steady hhost t).moves (i := u t) (waiting_of_rvalid hhost) with
  | rests hs => exact absurd hs h.1
  | begins w hs => exact absurd hs h.1
  | serves hs hs' =>
    exact Or.inl ⟨hs', (SaxiToHost.step_curIsWrite hs).trans h.2.1, hno.trans h.2.2⟩
  | ends hs hs' hb =>
    rw [h.2.1] at hb
    exact Or.inr (Or.inr ⟨hno.trans h.2.2, hb⟩)

/-- What has begun is served or through, and stays so. -/
theorem begun_mono (hhost : HostAnswers p u) {t' : ℕ} (h : Serves p u b t ∨ Through p u b t)
    (ht : t ≤ t') : Serves p u b t' ∨ Through p u b t' := by
  induction t', ht using Nat.le_induction with
  | base => exact h
  | succ t' _ ih =>
    rcases ih with h | h
    · exact h.succ hhost
    · exact Or.inr h.succ

/-- What is served at two times is served in between. -/
theorem Serves.between (hhost : HostAnswers p u) {n m : ℕ} (hn : Serves p u b n)
    (hm : Serves p u b m) (hnt : n ≤ t) (htm : t ≤ m) : Serves p u b t := by
  rcases begun_mono hhost (Or.inl hn) hnt with h | h
  · exact h
  · exact absurd (h.mono htm) (hm.not_through hhost)

theorem Serves.unique {b' : Bool × ℕ} (h : Serves p u b t) (h' : Serves p u b' t) : b = b' := by
  have hw : b.1 = b'.1 := h.2.1.symm.trans h'.2.1
  refine Prod.ext hw ?_
  rw [← h.2.2, ← h'.2.2, hw]

/-- An access belongs to the burst that is served. -/
theorem serves_of_hostGrants (h : hostGrants p u t = true) :
    Serves p u (accessBurst p u t) t := by
  have hs : ((saxiToHost p).state u t).engState = .issue := by
    simp only [hostGrants, SaxiToHost.dataReq, Bool.and_eq_true, beq_iff_eq] at h
    exact h.1
  have hw : ((saxiToHost p).state u t).dataWe = ((saxiToHost p).state u t).curIsWrite := if_pos hs
  exact ⟨by simp [hs], hw.symm, rfl⟩

/-! ### Errors -/

theorem lastBurst_succ (t : ℕ) : lastBurst p u (t + 1)
    = if hostGrants p u t then some (accessBurst p u t) else lastBurst p u t := rfl

/-- An access is one of a burst that has begun. -/
theorem begun_of_lastBurst (hhost : HostAnswers p u) (h : lastBurst p u t = some b) :
    Serves p u b t ∨ Through p u b t := by
  induction t with
  | zero => cases h
  | succ t ih =>
    refine begun_mono hhost ?_ (Nat.le_succ t)
    rw [lastBurst_succ] at h
    rcases hg : hostGrants p u t with _ | _
    · rw [hg] at h
      exact ih h
    · rw [hg] at h
      obtain rfl : accessBurst p u t = b := Option.some.inj h
      exact Or.inl (serves_of_hostGrants hg)

theorem begun_of_erred (hhost : HostAnswers p u) (h : Erred p u b t) :
    Serves p u b t ∨ Through p u b t := by
  obtain ⟨m, hm, _, _, hlast⟩ := h
  exact begun_mono hhost (begun_of_lastBurst hhost hlast) hm.le

theorem Serves.of_succ (hhost : HostAnswers p u) (h : Serves p u b (t + 1))
    (hs : ((saxiToHost p).state u t).engState ≠ .idle) : Serves p u b t := by
  have hw : ((saxiToHost p).state u t).curIsWrite = b.1 :=
    (SaxiToHost.step_curIsWrite (i := u t) hs).symm.trans h.2.1
  exact ⟨hs, hw, (burstNo_succ_of_busy ((steady hhost t).busy hs) b.1).symm.trans h.2.2⟩

/-- The engine waits for an access of the burst that it serves. -/
theorem lastBurst_of_waitRsp (hhost : HostAnswers p u) (h : Serves p u b t)
    (hs : ((saxiToHost p).state u t).engState = .waitRsp) : lastBurst p u t = some b := by
  induction t with
  | zero => cases hs
  | succ t ih =>
    rw [lastBurst_succ]
    by_cases hwait : ((saxiToHost p).state u t).engState = .waitRsp
    · have hg : hostGrants p u t = false := by simp [hostGrants, SaxiToHost.dataReq, hwait]
      rw [hg]
      exact ih (h.of_succ hhost (by simp [hwait])) hwait
    · have hg : hostGrants p u t = true :=
        (SaxiToHost.engStateN_eq_waitRsp hwait).symm.trans (beq_iff_eq.mpr hs)
      have hserves := serves_of_hostGrants hg
      rw [if_pos hg, hserves.unique (h.of_succ hhost hserves.1)]

theorem erred_succ : Erred p u b (t + 1) ↔ Erred p u b t ∨
    ((u t).dataRvalid = true ∧ (u t).dataErr = true ∧ lastBurst p u t = some b) := by
  constructor
  · rintro ⟨m, hm, hr⟩
    rcases Nat.eq_or_lt_of_le (Nat.le_of_lt_succ hm) with rfl | hlt
    · exact Or.inr hr
    · exact Or.inl ⟨m, hlt, hr⟩
  · rintro (⟨m, hm, hr⟩ | hr)
    · exact ⟨m, Nat.lt_succ_of_lt hm, hr⟩
    · exact ⟨t, Nat.lt_succ_self t, hr⟩

theorem erred_succ_of_quiet (hr : (u t).dataRvalid = false) :
    Erred p u b (t + 1) ↔ Erred p u b t := by
  rw [erred_succ, hr]
  simp

/-- An answer is one to the burst that is served. -/
theorem erred_succ_of_serves (hhost : HostAnswers p u) (h : Serves p u b t)
    (hr : (u t).dataRvalid = true) :
    Erred p u b (t + 1) ↔ Erred p u b t ∨ (u t).dataErr = true := by
  have hwait := SaxiToHost.waiting_iff.mp (waiting_of_rvalid hhost hr)
  rw [erred_succ, hr, lastBurst_of_waitRsp hhost h hwait.1]
  simp

theorem step_errorSeen {s : SaxiToHost p} {i : SaxiIn p} (hs : s.engState ≠ .idle)
    (hi : i.dataRvalid = true → s.waiting = true) :
    (s.step i).errorSeen = (i.dataRvalid && i.dataErr || s.errorSeen) := by
  rcases hr : i.dataRvalid with _ | _
  · simp [SaxiToHost.step, hs, hr]
  · have hwait := SaxiToHost.waiting_iff.mp (hi hr)
    cases he : i.dataErr <;> simp [SaxiToHost.step, hwait.1, hr, he]

/-- The error flag is that of the burst that is served. -/
theorem errorSeen_iff (hhost : HostAnswers p u) (h : Serves p u b t) :
    ((saxiToHost p).state u t).errorSeen = true ↔ Erred p u b t := by
  induction t with
  | zero => exact absurd rfl h.1
  | succ t ih =>
    by_cases hs : ((saxiToHost p).state u t).engState = .idle
    · -- a burst that begins has no answer yet
      cases (steady hhost t).moves (i := u t) (waiting_of_rvalid hhost) with
      | rests _ hs' => exact absurd hs' h.1
      | serves hs' => exact absurd hs hs'
      | ends hs' => exact absurd hs hs'
      | begins w _ _ hi hw hb _ he =>
        have hwb : b.1 = w := h.2.1.symm.trans hw
        rw [erred_succ_of_quiet hi]
        refine ⟨fun herr => absurd (he.symm.trans herr) Bool.false_ne_true, fun herr => ?_⟩
        rcases begun_of_erred hhost herr with hserves | hlt | ⟨_, hidle⟩
        · exact absurd hs hserves.1
        · have hno := (burstNo_succ_of_busy hb b.1).symm.trans h.2.2
          omega
        · rw [hwb, hb] at hidle
          cases hidle
    · have hserves := h.of_succ hhost hs
      have hstep : ((saxiToHost p).state u (t + 1)).errorSeen = _ :=
        step_errorSeen hs (waiting_of_rvalid hhost)
      rw [hstep, Bool.or_eq_true, ih hserves]
      rcases hr : (u t).dataRvalid with _ | _
      · rw [erred_succ_of_quiet hr]
        simp
      · rw [erred_succ_of_serves hhost hserves hr, or_comm, Bool.true_and]

/-! ### Responses -/

theorem respOf_eq_slverr {e : Bool} : Burst.respOf e = respSlverr ↔ e = true := by
  cases e <;> decide

/-- While a beat of a read is out, its response is that of the error flag. -/
theorem rresp_eq (hhost : HostAnswers p u) (hv : ((saxiToHost p).state u t).rvalid = true) :
    ((saxiToHost p).state u t).rresp = Burst.respOf ((saxiToHost p).state u t).errorSeen := by
  induction t with
  | zero => cases hv
  | succ t ih =>
    rcases SaxiToHost.step_rvalid_eq_true hv with hr | ⟨hvt, hh⟩
    · have hr' := hr
      simp only [SaxiToHost.rdRsp, Bool.and_eq_true, beq_iff_eq] at hr'
      have hstep : ((saxiToHost p).state u (t + 1)).errorSeen = _ :=
        step_errorSeen (by simp [hr'.1.1.1.2]) (waiting_of_rvalid hhost)
      rw [hstep, hr'.2, Bool.true_and]
      exact if_pos hr
    · have hout := (steady hhost t).rOut hvt
      have hq := SaxiToHost.quiet_of_not_waiting (i := u t) (waiting_of_rvalid hhost) (Or.inr hvt)
      have hstep : ((saxiToHost p).state u (t + 1)).errorSeen = _ :=
        step_errorSeen (by simp [hout.1]) (waiting_of_rvalid hhost)
      rw [hstep, hq, Bool.false_and, Bool.false_or, ← ih hvt]
      refine if_neg ?_
      simp [SaxiToHost.rdRsp, hvt]

theorem rresp_iff (hhost : HostAnswers p u) (hv : ((saxiToHost p).state u t).rvalid = true) :
    ((saxiToHost p).state u t).rresp = respSlverr ↔ Erred p u (false, burstNo p u false t) t := by
  have hout := (steady hhost t).rOut hv
  rw [rresp_eq hhost hv, respOf_eq_slverr]
  exact errorSeen_iff hhost ⟨by simp [hout.1], hout.2, rfl⟩

/-- While a B response is out, nothing is answered to the burst. -/
theorem erred_succ_of_bvalid (hhost : HostAnswers p u)
    (hv : ((saxiToHost p).state u t).bvalid = true) {k : ℕ} :
    Erred p u (true, k) (t + 1) ↔ Erred p u (true, k) t := by
  rw [erred_succ]
  refine ⟨fun h => ?_, Or.inl⟩
  rcases h with h | ⟨hr, _, hlast⟩
  · exact h
  · exfalso
    have hwait := SaxiToHost.waiting_iff.mp (waiting_of_rvalid hhost hr)
    have hserves : Serves p u (((saxiToHost p).state u t).curIsWrite,
        burstNo p u ((saxiToHost p).state u t).curIsWrite t) t := ⟨by simp [hwait.1], rfl, rfl⟩
    rw [lastBurst_of_waitRsp hhost hserves hwait.1] at hlast
    have hw : ((saxiToHost p).state u t).curIsWrite = true :=
      congrArg Prod.fst (Option.some.inj hlast)
    have hbusy : ((saxiToHost p).state u t).busyOf true = true :=
      hw ▸ (steady hhost t).busy (by simp [hwait.1])
    rw [(steady hhost t).bFree hbusy] at hv
    cases hv

theorem bresp_iff (hhost : HostAnswers p u) (hv : ((saxiToHost p).state u t).bvalid = true) :
    ((saxiToHost p).state u t).bresp = respSlverr ↔ Erred p u (true, burstNo p u true t) t := by
  induction t with
  | zero => cases hv
  | succ t ih =>
    rcases hraise : ((saxiToHost p).state u t).wrRsp (u t)
        && ((saxiToHost p).state u t).wrLen == 1 with _ | _
    · have hvt : ((saxiToHost p).state u t).bvalid = true := by
        have hv' : (if (((saxiToHost p).state u t).wrRsp (u t)
            && ((saxiToHost p).state u t).wrLen == 1) = true then true
            else ((saxiToHost p).state u t).bNext (u t)) = true := hv
        rw [hraise, if_neg Bool.false_ne_true] at hv'
        by_contra hvt
        rw [SaxiToHost.not_bNext (Bool.eq_false_of_not_eq_true hvt)] at hv'
        cases hv'
      have hno : burstNo p u true (t + 1) = burstNo p u true t := by
        rw [burstNo_succ]
        simp [SaxiToHost.okOf, SaxiToHost.awOk, SaxiToHost.bRespPending, hvt]
      have hresp : ((saxiToHost p).state u (t + 1)).bresp = ((saxiToHost p).state u t).bresp :=
        if_neg (by rw [hraise]; exact Bool.false_ne_true)
      rw [hresp, hno, erred_succ_of_bvalid hhost hvt]
      exact ih hvt
    · have hresp : ((saxiToHost p).state u (t + 1)).bresp
          = ((saxiToHost p).state u t).rspResp (u t) := if_pos hraise
      simp only [SaxiToHost.wrRsp, Bool.and_eq_true, beq_iff_eq] at hraise
      have hne : ((saxiToHost p).state u t).engState ≠ .idle := by simp [hraise.1.1.1]
      have hserves : Serves p u (true, burstNo p u true t) t := ⟨hne, hraise.1.1.2, rfl⟩
      rw [hresp, burstNo_succ_of_busy (hserves.busyOf hhost) true,
        erred_succ_of_serves hhost hserves hraise.1.2, ← errorSeen_iff hhost hserves]
      show Burst.respOf ((u t).dataErr || ((saxiToHost p).state u t).errorSeen) = _ ↔ _
      rw [respOf_eq_slverr, Bool.or_eq_true, or_comm]

/-! ### What is held -/

theorem r_stable : (saxiToHost p).StableUntil u SaxiToHost.rvalid (fun i => i.rready)
    (fun s => (⟨s.rid, s.rdata, s.rresp, s.rlast⟩ : RBeat p)) := by
  apply Machine.stableUntil_of_step
  intro t hv hr
  have hrsp : ((saxiToHost p).state u t).rdRsp (u t) = false := by simp [SaxiToHost.rdRsp, hv]
  have hhs : ((saxiToHost p).state u t).rHs (u t) = false := by simp [SaxiToHost.rHs, hr]
  rw [Machine.state_succ]
  show (SaxiToHost.step _ _).rvalid = true ∧
    (⟨(SaxiToHost.step _ _).rid, (SaxiToHost.step _ _).rdata, (SaxiToHost.step _ _).rresp,
      (SaxiToHost.step _ _).rlast⟩ : RBeat p) = _
  simp [SaxiToHost.step, hrsp, hhs, hv]

theorem b_stable (hhost : HostAnswers p u) :
    (saxiToHost p).StableUntil u SaxiToHost.bvalid (fun i => i.bready)
      (fun s => (⟨s.bid, s.bresp⟩ : BResp p)) := by
  apply Machine.stableUntil_of_step
  intro t hv hr
  -- a write burst is not accepted before the response to the last one is taken
  have hrsp : ((saxiToHost p).state u t).wrRsp (u t) = false := by
    by_contra hrsp
    simp only [SaxiToHost.wrRsp, Bool.not_eq_false, Bool.and_eq_true, beq_iff_eq] at hrsp
    have hbusy : ((saxiToHost p).state u t).busyOf true = true :=
      hrsp.1.2 ▸ (steady hhost t).busy (by simp [hrsp.1.1])
    rw [(steady hhost t).bFree hbusy] at hv
    cases hv
  have hhs : ((saxiToHost p).state u t).bHs (u t) = false := by simp [SaxiToHost.bHs, hr]
  rw [Machine.state_succ]
  show (SaxiToHost.step _ _).bvalid = true ∧
    (⟨(SaxiToHost.step _ _).bid, (SaxiToHost.step _ _).bresp⟩ : BResp p) = _
  simp [SaxiToHost.step, hrsp, hhs, hv]

theorem dataReq_stable (hhost : HostAnswers p u) :
    (saxiToHost p).StableUntil u SaxiToHost.dataReq (fun i => i.dataGnt)
      (fun s => (⟨s.dataAddr, s.dataWe, s.dataBe, s.dataWdata⟩ : HostAccess)) := by
  apply Machine.stableUntil_of_step
  intro t hv hr
  have hs : ((saxiToHost p).state u t).engState = .issue := beq_iff_eq.mp hv
  have hstep : (saxiToHost p).state u (t + 1) = _ :=
    SaxiToHost.step_of_issue hs ((steady hhost t).not_rvalid (by simp [hs]))
      (SaxiToHost.quiet_of_not_waiting (waiting_of_rvalid hhost) (Or.inl (by simp [hs])))
  rw [hr, if_neg Bool.false_ne_true, ← hs] at hstep
  rw [hstep]
  exact ⟨hv, rfl⟩

end Run

/-- **The protocol of the bridge, with a host that answers what it has granted.**  The
R and B channels and the host request hold what they offer; there is no request before
the last access is answered; the accesses of a burst have none of another burst between
them; and a response reports an error exactly if one was answered to its own burst. -/
theorem saxi_protocol {u : ℕ → SaxiIn p} (hhost : HostAnswers p u) :
    (saxiToHost p).StableUntil u SaxiToHost.rvalid (fun i => i.rready)
      (fun s => (⟨s.rid, s.rdata, s.rresp, s.rlast⟩ : RBeat p)) ∧
    (saxiToHost p).StableUntil u SaxiToHost.bvalid (fun i => i.bready)
      (fun s => (⟨s.bid, s.bresp⟩ : BResp p)) ∧
    (saxiToHost p).StableUntil u SaxiToHost.dataReq (fun i => i.dataGnt)
      (fun s => (⟨s.dataAddr, s.dataWe, s.dataBe, s.dataWdata⟩ : HostAccess)) ∧
    (∀ t, ((saxiToHost p).state u t).dataReq = true → unanswered p u t = 0) ∧
    (∀ n k m, n ≤ k → k ≤ m → hostGrants p u n = true → hostGrants p u k = true →
      hostGrants p u m = true → accessBurst p u n = accessBurst p u m →
      accessBurst p u k = accessBurst p u n) ∧
    (∀ t, ((saxiToHost p).state u t).bvalid = true →
      (((saxiToHost p).state u t).bresp = respSlverr ↔
        Erred p u (true, burstNo p u true t) t)) ∧
    ∀ t, ((saxiToHost p).state u t).rvalid = true →
      (((saxiToHost p).state u t).rresp = respSlverr ↔
        Erred p u (false, burstNo p u false t) t) := by
  refine ⟨r_stable, b_stable hhost, dataReq_stable hhost, ?_, ?_, ?_, ?_⟩
  · intro t hreq
    exact unanswered_of_dataReq hhost hreq
  · intro n k m hnk hkm hn hk hm hb
    have hserves : Serves p u (accessBurst p u n) k :=
      (serves_of_hostGrants hn).between hhost (hb ▸ serves_of_hostGrants hm) hnk hkm
    exact (serves_of_hostGrants hk).unique hserves
  · intro t hv
    exact bresp_iff hhost hv
  · intro t hv
    exact rresp_iff hhost hv

/-- A write burst of one beat and a read burst of two, accepted in one cycle; the host
answers the write with an error. -/
def failedWrite (n : ℕ) : SaxiIn ⟨4, 32⟩ :=
  { promptIn 1 0 true true [5, 9, 13] n with dataErr := n == 5 }

theorem failedWrite_hostAnswers : HostAnswers ⟨4, 32⟩ failedWrite := by
  intro n hn
  have hmem : n = 5 ∨ n = 9 ∨ n = 13 := by simpa [failedWrite, promptIn] using hn
  rcases hmem with rfl | rfl | rfl <;> decide

/-- The error is the write's: the first beat of the read reports none. -/
theorem failedWrite_reported :
    Erred ⟨4, 32⟩ failedWrite (true, 1) 6 ∧ ¬ Erred ⟨4, 32⟩ failedWrite (false, 1) 10 :=
  ⟨((saxi_protocol failedWrite_hostAnswers).2.2.2.2.2.1 6 (by decide)).mp (by decide),
    fun h => absurd (((saxi_protocol failedWrite_hostAnswers).2.2.2.2.2.2 10 (by decide)).mpr h)
      (by decide)⟩

end AxisSystolic
