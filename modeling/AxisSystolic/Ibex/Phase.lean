import AxisSystolic.Ibex.Service

/-!
# Where the engine of the burst bridge stands

Between two clock edges the engine is idle or at one of eight points of a beat, and
the registers tell which events of the current burst the ports have shown (`Phase`).
An edge shows the events that come next, or finishes the burst (`Phase.step`), so
that a run shows the services of the bursts one after the other (`Bridged`).
-/

namespace AxisSystolic

open Sync

variable {p : SaxiParams}

/-! ### The registers between two edges -/

namespace SaxiToHost

/-- What holds in every run, whatever the host does. -/
structure Coherent (s : SaxiToHost p) : Prop where
  rdCmd : s.rdCmdValid = s.rdBusy
  wrCmd : s.wrCmdValid = s.wrBusy
  hold : s.rHoldValid = s.rvalid
  bFree : s.wrBusy = true → s.bvalid = false

/-- A read burst that is latched and not begun. -/
def rdPending (s : SaxiToHost p) : List (BurstCmd p) :=
  if s.rdBusy then [.read ⟨s.rdId, s.rdAddr, s.rdLen - 1⟩] else []

def wrPending (s : SaxiToHost p) : List (BurstCmd p) :=
  if s.wrBusy then [.write ⟨s.wrId, s.wrAddr, s.wrLen - 1⟩] else []

/-- The write burst `b` is being served, and the beats `ds` are done. -/
structure Writing (s : SaxiToHost p) (b : Burst p) (ds : List (WBeat × HostRsp)) : Prop where
  isWrite : s.curIsWrite = true
  busy : s.wrBusy = true
  id : s.wrId = b.id
  addr : s.wrAddr = b.beatAddr ds.length
  len : s.wrLen.toNat + ds.length = b.len.toNat + 1
  left : s.wrLen ≠ 0#8
  error : s.errorSeen = ds.any (·.2.err)
  noR : s.rvalid = false
  rdLen : s.rdBusy = true → s.rdLen ≠ 0#8

/-- The read burst `b` is being served, and the beats `rs` have been handed over. -/
structure Reading (s : SaxiToHost p) (b : Burst p) (rs : List HostRsp) : Prop where
  isRead : s.curIsWrite = false
  busy : s.rdBusy = true
  free : s.wrBusy = false
  id : s.rdId = b.id
  addr : s.rdAddr = b.beatAddr rs.length
  len : s.rdLen.toNat + rs.length = b.len.toNat + 1
  left : s.rdLen ≠ 0#8
  noData : s.wrDataValid = false

/-- Where the engine stands: the bursts that are accepted and not finished, and what
the ports have shown of the first of them. -/
inductive Phase (s : SaxiToHost p) : List (BurstCmd p) → List (PortEvent p) → Prop
  | idle (hs : s.engState = .idle) (hd : s.wrDataValid = false) (hv : s.rvalid = false)
      (hr : s.rdBusy = true → s.rdLen ≠ 0#8) (hw : s.wrBusy = true → s.wrLen ≠ 0#8) :
      Phase s (s.wrPending ++ s.rdPending) []
  | wEmpty (b ds) (hs : s.engState = .wActive) (hd : s.wrDataValid = false)
      (h : s.Writing b ds) : Phase s (.write b :: s.rdPending) (blocks b.writeBeat ds)
  | wFull (b ds) (hs : s.engState = .wActive) (hd : s.wrDataValid = true)
      (h : s.Writing b ds) : Phase s (.write b :: s.rdPending)
        (blocks b.writeBeat ds ++ [.w ⟨s.wrDataQ, s.wrStrbQ⟩])
  | wIssue (b ds) (hs : s.engState = .issue) (hd : s.wrDataValid = true)
      (h : s.Writing b ds) : Phase s (.write b :: s.rdPending)
        (blocks b.writeBeat ds ++ [.w ⟨s.wrDataQ, s.wrStrbQ⟩])
  | wWait (b ds) (hs : s.engState = .waitRsp) (hd : s.wrDataValid = true)
      (h : s.Writing b ds) : Phase s (.write b :: s.rdPending)
        (blocks b.writeBeat ds ++ [.w ⟨s.wrDataQ, s.wrStrbQ⟩,
          .gnt ⟨b.beatAddr ds.length, true, s.wrStrbQ, s.wrDataQ⟩])
  | rActive (b rs) (hs : s.engState = .rActive) (hv : s.rvalid = false)
      (he : s.errorSeen = rs.any HostRsp.err) (h : s.Reading b rs) :
      Phase s [.read b] (blocks b.readBeat rs)
  | rIssue (b rs) (hs : s.engState = .issue) (hv : s.rvalid = false)
      (he : s.errorSeen = rs.any HostRsp.err) (h : s.Reading b rs) :
      Phase s [.read b] (blocks b.readBeat rs)
  | rWait (b rs) (hs : s.engState = .waitRsp) (hv : s.rvalid = false)
      (he : s.errorSeen = rs.any HostRsp.err) (h : s.Reading b rs) :
      Phase s [.read b] (blocks b.readBeat rs ++ [.gnt ⟨b.beatAddr rs.length, false, 0xF, 0⟩])
  | rAnswer (b rs r) (hs : s.engState = .waitRsp) (hv : s.rvalid = true)
      (he : s.errorSeen = (rs ++ [r]).any HostRsp.err) (h : s.Reading b rs)
      (hx : (⟨s.rid, s.rdata, s.rresp, s.rlast⟩ : RBeat p) = ⟨b.id, r.rdata,
        Burst.respOf ((rs ++ [r]).any HostRsp.err), decide (rs.length = b.len.toNat)⟩) :
      Phase s [.read b] (blocks b.readBeat rs ++
        [.gnt ⟨b.beatAddr rs.length, false, 0xF, 0⟩, .rsp r])

/-- The engine waits for the host. -/
def waiting (s : SaxiToHost p) : Bool := s.engState == .waitRsp && !s.rvalid

theorem waiting_iff {s : SaxiToHost p} :
    s.waiting = true ↔ s.engState = .waitRsp ∧ s.rvalid = false := by
  simp [waiting]

end SaxiToHost

/-! ### What one edge shows -/

namespace SaxiToHost

variable {s : SaxiToHost p} {i : SaxiIn p}

theorem Coherent.step (h : s.Coherent) (i : SaxiIn p) : (s.step i).Coherent where
  rdCmd := by simp [SaxiToHost.step, h.rdCmd]
  wrCmd := by simp [SaxiToHost.step, h.wrCmd]
  hold := by simp [SaxiToHost.step, h.hold]
  bFree := by
    intro hw
    rcases hd : s.wrDone i with _ | _
    · rw [step_bvalid_of_not_wrDone hd]
      refine not_bNext ?_
      rcases ha : s.awOk i with _ | _
      · refine h.bFree ?_
        simpa [SaxiToHost.step, hd, ha] using hw
      · simp only [awOk, Bool.and_eq_true, Bool.not_eq_true'] at ha
        exact ha.2
    · simp [SaxiToHost.step, hd] at hw

theorem accepts_of_not_ok (h : s.arOk i = false ∧ s.awOk i = false) : s.accepts i = [] := by
  simp [accepts, h]

theorem no_bRaise (h : (s.step i).bvalid = s.bNext i) :
    (!s.bvalid && (s.step i).bvalid) = false := by
  rw [h, bNext]
  cases hb : s.bvalid <;> simp [bHs, hb]

theorem portEvents_of_idle (hs : s.engState = .idle) (hv : s.rvalid = false)
    (hi : i.dataRvalid = false) (hb : (s.step i).bvalid = s.bNext i) : s.portEvents i = [] := by
  simp [portEvents, wHs, wantWbeat, dataReq, rHs, hs, hv, hi, no_bRaise hb]

theorem portEvents_of_wActive (hs : s.engState = .wActive) (hv : s.rvalid = false)
    (hi : i.dataRvalid = false) :
    s.portEvents i = if s.wHs i then [.w ⟨i.wdata, i.wstrb⟩] else [] := by
  have hb : (s.step i).bvalid = s.bNext i := by rw [step_of_wActive hs hv hi]
  simp [portEvents, dataReq, rHs, hs, hv, hi, no_bRaise hb]

theorem portEvents_of_rActive (hs : s.engState = .rActive) (hv : s.rvalid = false)
    (hi : i.dataRvalid = false) : s.portEvents i = [] := by
  have hb : (s.step i).bvalid = s.bNext i := by rw [step_of_rActive hs hv hi]
  simp [portEvents, wHs, wantWbeat, dataReq, rHs, hs, hv, hi, no_bRaise hb]

theorem portEvents_of_issue (hs : s.engState = .issue) (hv : s.rvalid = false)
    (hi : i.dataRvalid = false) : s.portEvents i =
      if i.dataGnt then [.gnt ⟨s.issueAddr, s.curIsWrite, s.issueBe, s.issueWdata⟩] else [] := by
  have hb : (s.step i).bvalid = s.bNext i := by rw [step_of_issue hs hv hi]
  simp [portEvents, wHs, wantWbeat, dataReq, dataAddr, dataWe, dataBe, dataWdata, rHs, hs, hv, hi,
    no_bRaise hb]

theorem portEvents_of_waitRsp (hs : s.engState = .waitRsp) (hi : i.dataRvalid = false)
    (hb : (s.step i).bvalid = s.bNext i) : s.portEvents i =
      if s.rHs i then [.r ⟨s.rid, s.rdata, s.rresp, s.rlast⟩] else [] := by
  simp [portEvents, wHs, wantWbeat, dataReq, hs, hi, no_bRaise hb]

theorem portEvents_of_rdRsp (hs : s.engState = .waitRsp) (hv : s.rvalid = false)
    (hi : i.dataRvalid = true) (hb : (s.step i).bvalid = s.bNext i) :
    s.portEvents i = [.rsp ⟨i.dataRdata, i.dataErr⟩] := by
  simp [portEvents, wHs, wantWbeat, dataReq, rHs, hs, hv, hi, no_bRaise hb]

/-- The last response of a write raises the B response. -/
theorem portEvents_of_wrRsp (hs : s.engState = .waitRsp) (hw : s.curIsWrite = true)
    (hv : s.rvalid = false) (hl : s.wrLen ≠ 0#8) (hi : i.dataRvalid = true)
    (hb : s.bvalid = false) : s.portEvents i = .rsp ⟨i.dataRdata, i.dataErr⟩ ::
      if s.wrLen = 1#8 then [.b ⟨s.wrId, s.rspResp i⟩] else [] := by
  have hstep := step_of_wrRsp hs hw hv hl hi
  by_cases hl1 : s.wrLen = 1#8 <;>
    simp [portEvents, wHs, wantWbeat, dataReq, rHs, hs, hv, hi, hb, hstep, hl1, not_bNext hb]

/-! ### One edge keeps the phase -/

theorem toNat_pred {x : BitVec 8} (h : x ≠ 0#8) : (x - 1).toNat + 1 = x.toNat := by
  have hpos : x.toNat ≠ 0 := fun h0 => h (BitVec.eq_of_toNat_eq h0)
  have hle : (1 : BitVec 8) ≤ x := BitVec.le_def.mpr (show 1 ≤ x.toNat by omega)
  rw [BitVec.toNat_sub_of_le hle]
  exact Nat.succ_pred_eq_of_ne_zero hpos

theorem pred_ne_zero {x : BitVec 8} (h : x ≠ 1#8) : x - 1 ≠ 0#8 := by
  intro h0
  refine h ?_
  rw [← BitVec.sub_add_cancel x 1, h0]
  rfl

theorem succ_ne_zero {x : BitVec 8} (h : x ≠ 255) : x + 1 ≠ 0#8 := by
  intro h0
  refine h ?_
  rw [← BitVec.add_sub_cancel x 1, h0]
  rfl

theorem wrDone_of_quiet (hi : i.dataRvalid = false) : s.wrDone i = false := by
  simp [wrDone, hi]

/-- Nothing is accepted: the engine begins what is pending. -/
theorem step_begin_write (hc : s.Coherent) (hs : s.engState = .idle)
    (hd : s.wrDataValid = false) (hv : s.rvalid = false)
    (hr : s.rdBusy = true → s.rdLen ≠ 0#8) (hw : s.wrLen ≠ 0#8) (hb : s.wrBusy = true)
    (hi : i.dataRvalid = false) :
    Phase (s.step i) (s.wrPending ++ s.rdPending) [] := by
  have hstep := step_of_idle_write hs hb (hc.wrCmd.trans hb) hv hi
  have hpend : s.wrPending = [.write ⟨s.wrId, s.wrAddr, s.wrLen - 1⟩] := if_pos hb
  rw [hstep, hpend]
  exact .wEmpty ⟨s.wrId, s.wrAddr, s.wrLen - 1⟩ [] rfl hd
    { isWrite := rfl
      busy := hb
      id := rfl
      addr := (Burst.beatAddr_zero ⟨s.wrId, s.wrAddr, s.wrLen - 1⟩).symm
      len := (toNat_pred hw).symm
      left := hw
      error := rfl
      noR := hv
      rdLen := hr }

theorem step_begin_read (hc : s.Coherent) (hs : s.engState = .idle)
    (hd : s.wrDataValid = false) (hv : s.rvalid = false) (hr : s.rdLen ≠ 0#8)
    (hb : s.rdBusy = true) (hw : s.wrBusy = false) (hi : i.dataRvalid = false) :
    Phase (s.step i) (s.wrPending ++ s.rdPending) [] := by
  have hstep := step_of_idle_read hs hb (hc.rdCmd.trans hb) (hc.wrCmd.trans hw) hv hi
  have hpend : s.wrPending ++ s.rdPending = [.read ⟨s.rdId, s.rdAddr, s.rdLen - 1⟩] := by
    simp [wrPending, rdPending, hb, hw]
  rw [hstep, hpend]
  exact .rActive ⟨s.rdId, s.rdAddr, s.rdLen - 1⟩ [] rfl hv rfl
    { isRead := rfl
      busy := hb
      free := hw
      id := rfl
      addr := (Burst.beatAddr_zero ⟨s.rdId, s.rdAddr, s.rdLen - 1⟩).symm
      len := (toNat_pred hr).symm
      left := hr
      noData := hd }

theorem step_accept (hc : s.Coherent) (hs : s.engState = .idle)
    (hd : s.wrDataValid = false) (hv : s.rvalid = false) (hb : s.rdBusy = false)
    (hw : s.wrBusy = false) (hi : i.dataRvalid = false) (hlen : s.LenOk i) :
    Phase (s.step i) (s.accepts i) [] := by
  have hstep := step_of_free (i := i) hs (hc.rdCmd.trans hb) (hc.wrCmd.trans hw) hv hi
  have hpend : s.accepts i = (s.step i).wrPending ++ (s.step i).rdPending := by
    rw [hstep, accepts, wrPending, rdPending]
    cases har : s.arOk i <;> cases haw : s.awOk i <;> simp [hb, hw]
  rw [hpend]
  refine .idle ?_ ?_ ?_ ?_ ?_
  · rw [hstep]
    exact hs
  · rw [hstep]
    exact hd
  · rw [hstep]
    exact hv
  · rw [hstep]
    intro hbusy
    have har : s.arOk i = true := by simpa [hb] using hbusy
    show (if s.arOk i = true then i.arlen + 1 else s.rdLen) ≠ 0#8
    rw [if_pos har]
    exact succ_ne_zero (hlen.1 har)
  · rw [hstep]
    intro hbusy
    have haw : s.awOk i = true := by simpa [hw] using hbusy
    show (if s.awOk i = true then i.awlen + 1 else s.wrLen) ≠ 0#8
    rw [if_pos haw]
    exact succ_ne_zero (hlen.2 haw)

theorem Phase.step_idle (hc : s.Coherent) (hs : s.engState = .idle)
    (hd : s.wrDataValid = false) (hv : s.rvalid = false)
    (hr : s.rdBusy = true → s.rdLen ≠ 0#8) (hw : s.wrBusy = true → s.wrLen ≠ 0#8)
    (hi : i.dataRvalid = false) (hlen : s.LenOk i) :
    Phase (s.step i) (s.wrPending ++ s.rdPending ++ s.accepts i) ([] ++ s.portEvents i) := by
  rw [portEvents_of_idle hs hv hi (step_bvalid_of_not_wrDone (wrDone_of_quiet hi)),
    List.append_nil]
  rcases hwb : s.wrBusy with _ | _
  · rcases hrb : s.rdBusy with _ | _
    · have hnone : s.wrPending ++ s.rdPending = [] := by simp [wrPending, rdPending, hwb, hrb]
      rw [hnone]
      exact step_accept hc hs hd hv hrb hwb hi hlen
    · rw [accepts_of_not_ok (not_ok_of_busy (Or.inl hrb)), List.append_nil]
      exact step_begin_read hc hs hd hv (hr hrb) hrb hwb hi
  · rw [accepts_of_not_ok (not_ok_of_busy (Or.inr hwb)), List.append_nil]
    exact step_begin_write hc hs hd hv hr (hw hwb) hwb hi

theorem Phase.step_wEmpty {b : Burst p} {ds} (hs : s.engState = .wActive)
    (hd : s.wrDataValid = false) (h : s.Writing b ds) (hi : i.dataRvalid = false) :
    Phase (s.step i) (.write b :: s.rdPending ++ s.accepts i)
      (blocks b.writeBeat ds ++ s.portEvents i) := by
  have hstep := step_of_wActive hs h.noR hi
  rw [accepts_of_not_ok (not_ok_of_ne_idle (by simp [hs])), List.append_nil]
  rcases hw : s.wHs i with _ | _
  · have hev : s.portEvents i = [] := by rw [portEvents_of_wActive hs h.noR hi, hw]; rfl
    rw [hw, hd] at hstep
    rw [hev, List.append_nil, hstep]
    exact .wEmpty b ds rfl rfl { h with }
  · have hev : s.portEvents i = [.w ⟨i.wdata, i.wstrb⟩] := by
      rw [portEvents_of_wActive hs h.noR hi, hw]
      rfl
    rw [hw, hd] at hstep
    rw [hev, hstep]
    exact .wFull b ds rfl rfl { h with }

theorem Phase.step_wFull {b : Burst p} {ds} (hs : s.engState = .wActive)
    (hd : s.wrDataValid = true) (h : s.Writing b ds) (hi : i.dataRvalid = false) :
    Phase (s.step i) (.write b :: s.rdPending ++ s.accepts i)
      (blocks b.writeBeat ds ++ [.w ⟨s.wrDataQ, s.wrStrbQ⟩] ++ s.portEvents i) := by
  have hw : s.wHs i = false := by simp [wHs, wantWbeat, hd]
  have hstep := step_of_wActive hs h.noR hi
  have hev : s.portEvents i = [] := by rw [portEvents_of_wActive hs h.noR hi, hw]; rfl
  rw [hw, hd] at hstep
  rw [accepts_of_not_ok (not_ok_of_ne_idle (by simp [hs])), List.append_nil, hev,
    List.append_nil, hstep]
  exact .wIssue b ds rfl rfl { h with }

theorem Phase.step_wIssue {b : Burst p} {ds} (hs : s.engState = .issue)
    (hd : s.wrDataValid = true) (h : s.Writing b ds) (hi : i.dataRvalid = false) :
    Phase (s.step i) (.write b :: s.rdPending ++ s.accepts i)
      (blocks b.writeBeat ds ++ [.w ⟨s.wrDataQ, s.wrStrbQ⟩] ++ s.portEvents i) := by
  have hstep := step_of_issue hs h.noR hi
  rw [accepts_of_not_ok (not_ok_of_ne_idle (by simp [hs])), List.append_nil]
  rcases hg : i.dataGnt with _ | _
  · have hev : s.portEvents i = [] := by rw [portEvents_of_issue hs h.noR hi, hg]; rfl
    rw [hg] at hstep
    rw [hev, List.append_nil, hstep]
    exact .wIssue b ds rfl hd { h with }
  · have hiss : s.issueWrite = true := by simp [issueWrite, hs, h.isWrite]
    have hev : s.portEvents i =
        [.gnt ⟨b.beatAddr ds.length, true, s.wrStrbQ, s.wrDataQ⟩] := by
      rw [portEvents_of_issue hs h.noR hi, hg, issueAddr, issueBe, issueWdata, hiss, h.isWrite,
        ← h.addr]
      rfl
    rw [hg] at hstep
    rw [hev, hstep, List.append_assoc]
    exact .wWait b ds rfl hd { h with }

/-- The end of an edge in which the burst `c` is finished. -/
def Finished (s' : SaxiToHost p) (c : BurstCmd p) (todo : List (BurstCmd p))
    (shown : List (PortEvent p)) : Prop :=
  ∃ v : Service p, v.cmd = c ∧ v.events = shown ∧ Phase s' todo []

theorem Phase.step_wWait {b : Burst p} {ds} (hc : s.Coherent) (hs : s.engState = .waitRsp)
    (hd : s.wrDataValid = true) (h : s.Writing b ds) :
    Phase (s.step i) (.write b :: s.rdPending) (blocks b.writeBeat ds ++
        [.w ⟨s.wrDataQ, s.wrStrbQ⟩, .gnt ⟨b.beatAddr ds.length, true, s.wrStrbQ, s.wrDataQ⟩] ++
        s.portEvents i) ∨
      Finished (s.step i) (.write b) s.rdPending (blocks b.writeBeat ds ++
        [.w ⟨s.wrDataQ, s.wrStrbQ⟩, .gnt ⟨b.beatAddr ds.length, true, s.wrStrbQ, s.wrDataQ⟩] ++
        s.portEvents i) := by
  have hr : s.rHs i = false := by simp [rHs, h.noR]
  rcases hi : i.dataRvalid with _ | _
  · have hstep := step_of_waitRsp hs hi hr
    have hev : s.portEvents i = [] := by
      rw [portEvents_of_waitRsp hs hi (by rw [hstep]), hr]
      rfl
    rw [hev, List.append_nil, hstep]
    exact Or.inl (.wWait b ds hs hd { h with })
  · have hstep := step_of_wrRsp hs h.isWrite h.noR h.left hi
    have hev := portEvents_of_wrRsp hs h.isWrite h.noR h.left hi (hc.bFree h.busy)
    let x : WBeat × HostRsp := (⟨s.wrDataQ, s.wrStrbQ⟩, ⟨i.dataRdata, i.dataErr⟩)
    have herr : (i.dataErr || s.errorSeen) = (ds ++ [x]).any (·.2.err) := by
      rw [h.error, List.any_append, Bool.or_comm]
      simp [x]
    have hshown : blocks b.writeBeat ds ++ [.w ⟨s.wrDataQ, s.wrStrbQ⟩,
        .gnt ⟨b.beatAddr ds.length, true, s.wrStrbQ, s.wrDataQ⟩] ++
        [.rsp ⟨i.dataRdata, i.dataErr⟩] = blocks b.writeBeat (ds ++ [x]) := by
      rw [blocks_snoc, List.append_assoc]
      rfl
    have hlen := toNat_pred h.left
    by_cases hl : s.wrLen = 1#8
    · have hx : (ds ++ [x]).length = b.len.toNat + 1 := by
        have hone := h.len
        rw [hl] at hone
        rw [List.length_append, ← hone]
        exact Nat.add_comm _ _
      have hb : s.portEvents i =
          [.rsp ⟨i.dataRdata, i.dataErr⟩] ++ [.b ⟨s.wrId, s.rspResp i⟩] := by
        rw [hev, if_pos hl]
        rfl
      refine Or.inr ⟨.write b (ds ++ [x]) hx, rfl, ?_, ?_⟩
      · rw [hb, ← List.append_assoc, hshown, rspResp, herr, h.id]
        rfl
      · have hpend : s.rdPending = (s.step i).wrPending ++ (s.step i).rdPending := by
          rw [hstep, hl]
          rfl
        rw [hpend]
        refine .idle ?_ ?_ ?_ ?_ ?_ <;> rw [hstep, hl]
        · rfl
        · exact h.noR
        · exact h.rdLen
        · intro hbusy
          cases hbusy
    · rw [hev, if_neg hl, hshown, hstep]
      refine Or.inl (.wEmpty b (ds ++ [x]) (if_neg hl) rfl ?_)
      exact
        { isWrite := h.isWrite
          busy := by simp [hl, h.busy]
          id := h.id
          addr := by
            rw [List.length_append, List.length_singleton, ← Burst.beatAddr_succ, ← h.addr]
          len := by
            have hlen' := h.len
            rw [List.length_append, List.length_singleton]
            show (s.wrLen - 1).toNat + (ds.length + 1) = _
            omega
          left := pred_ne_zero hl
          error := herr
          noR := h.noR
          rdLen := h.rdLen }

theorem Phase.step_rActive {b : Burst p} {rs} (hs : s.engState = .rActive)
    (hv : s.rvalid = false) (he : s.errorSeen = rs.any HostRsp.err) (h : s.Reading b rs)
    (hi : i.dataRvalid = false) :
    Phase (s.step i) ([.read b] ++ s.accepts i) (blocks b.readBeat rs ++ s.portEvents i) := by
  rw [accepts_of_not_ok (not_ok_of_ne_idle (by simp [hs])), portEvents_of_rActive hs hv hi,
    List.append_nil, List.append_nil, step_of_rActive hs hv hi]
  exact .rIssue b rs rfl hv he { h with }

theorem Phase.step_rIssue {b : Burst p} {rs} (hs : s.engState = .issue)
    (hv : s.rvalid = false) (he : s.errorSeen = rs.any HostRsp.err) (h : s.Reading b rs)
    (hi : i.dataRvalid = false) :
    Phase (s.step i) ([.read b] ++ s.accepts i) (blocks b.readBeat rs ++ s.portEvents i) := by
  have hstep := step_of_issue hs hv hi
  rw [accepts_of_not_ok (not_ok_of_ne_idle (by simp [hs])), List.append_nil]
  rcases hg : i.dataGnt with _ | _
  · have hev : s.portEvents i = [] := by rw [portEvents_of_issue hs hv hi, hg]; rfl
    rw [hg] at hstep
    rw [hev, List.append_nil, hstep]
    exact .rIssue b rs rfl hv he { h with }
  · have hiss : s.issueWrite = false := by simp [issueWrite, hs, h.isRead]
    have hev : s.portEvents i = [.gnt ⟨b.beatAddr rs.length, false, 0xF, 0⟩] := by
      rw [portEvents_of_issue hs hv hi, hg, issueAddr, issueBe, issueWdata, hiss, h.isRead,
        ← h.addr]
      rfl
    rw [hg] at hstep
    rw [hev, hstep]
    exact .rWait b rs rfl hv he { h with }

theorem Phase.step_rWait {b : Burst p} {rs} (hc : s.Coherent) (hs : s.engState = .waitRsp)
    (hv : s.rvalid = false) (he : s.errorSeen = rs.any HostRsp.err) (h : s.Reading b rs) :
    Phase (s.step i) ([.read b] ++ s.accepts i)
      (blocks b.readBeat rs ++ [.gnt ⟨b.beatAddr rs.length, false, 0xF, 0⟩] ++
        s.portEvents i) := by
  have hr : s.rHs i = false := by simp [rHs, hv]
  rw [accepts_of_not_ok (not_ok_of_ne_idle (by simp [hs])), List.append_nil]
  rcases hi : i.dataRvalid with _ | _
  · have hstep := step_of_waitRsp hs hi hr
    have hev : s.portEvents i = [] := by
      rw [portEvents_of_waitRsp hs hi (by rw [hstep]), hr]
      rfl
    rw [hev, List.append_nil, hstep]
    exact .rWait b rs hs hv he { h with }
  · have hstep := step_of_rdRsp hs h.isRead hv (hc.hold.trans hv) hi
    have herr : (i.dataErr || s.errorSeen) =
        (rs ++ [(⟨i.dataRdata, i.dataErr⟩ : HostRsp)]).any HostRsp.err := by
      rw [he, List.any_append, Bool.or_comm]
      simp
    rw [portEvents_of_rdRsp hs hv hi (by rw [hstep]), hstep, List.append_assoc]
    refine .rAnswer b rs ⟨i.dataRdata, i.dataErr⟩ hs rfl herr { h with } ?_
    have hlast : (s.rdLen == 1) = decide (rs.length = b.len.toNat) := by
      rw [Bool.eq_iff_iff, beq_iff_eq, decide_eq_true_iff, ← BitVec.toNat_inj]
      have hlen := h.len
      show s.rdLen.toNat = 1 ↔ _
      omega
    rw [← herr, ← hlast, ← h.id]
    rfl

theorem Phase.step_rAnswer {b : Burst p} {rs} {r : HostRsp} (hs : s.engState = .waitRsp)
    (hv : s.rvalid = true) (he : s.errorSeen = (rs ++ [r]).any HostRsp.err) (h : s.Reading b rs)
    (hx : (⟨s.rid, s.rdata, s.rresp, s.rlast⟩ : RBeat p) = ⟨b.id, r.rdata,
      Burst.respOf ((rs ++ [r]).any HostRsp.err), decide (rs.length = b.len.toNat)⟩)
    (hi : i.dataRvalid = false) :
    Phase (s.step i) [.read b] (blocks b.readBeat rs ++
        [.gnt ⟨b.beatAddr rs.length, false, 0xF, 0⟩, .rsp r] ++ s.portEvents i) ∨
      Finished (s.step i) (.read b) [] (blocks b.readBeat rs ++
        [.gnt ⟨b.beatAddr rs.length, false, 0xF, 0⟩, .rsp r] ++ s.portEvents i) := by
  rcases hr : s.rHs i with _ | _
  · have hstep := step_of_waitRsp hs hi hr
    have hev : s.portEvents i = [] := by
      rw [portEvents_of_waitRsp hs hi (by rw [hstep]), hr]
      rfl
    rw [hev, List.append_nil, hstep]
    exact Or.inl (.rAnswer b rs r hs hv he { h with } hx)
  · have hstep := step_of_rHs hs h.isRead h.left hi hr
    have hshown : blocks b.readBeat rs ++
        [.gnt ⟨b.beatAddr rs.length, false, 0xF, 0⟩, .rsp r] ++ s.portEvents i =
          blocks b.readBeat (rs ++ [r]) := by
      rw [portEvents_of_waitRsp hs hi (by rw [hstep]), hr, if_pos rfl, hx, blocks_snoc,
        List.append_assoc]
      rfl
    rw [hshown]
    by_cases hl : s.rdLen = 1#8
    · have hlen : (rs ++ [r]).length = b.len.toNat + 1 := by
        have hone := h.len
        rw [hl] at hone
        rw [List.length_append, ← hone]
        exact Nat.add_comm _ _
      refine Or.inr ⟨.read b (rs ++ [r]) hlen, rfl, rfl, ?_⟩
      have hnone : ([] : List (BurstCmd p)) = (s.step i).wrPending ++ (s.step i).rdPending := by
        rw [hstep, hl, wrPending, rdPending, h.free]
        rfl
      rw [hnone]
      refine .idle ?_ ?_ ?_ ?_ ?_ <;> rw [hstep, hl]
      · rfl
      · exact h.noData
      · intro hbusy
        cases hbusy
      · intro hbusy
        rw [h.free] at hbusy
        cases hbusy
    · have hlen := toNat_pred h.left
      rw [hstep]
      refine Or.inl (.rActive b (rs ++ [r]) (if_neg hl) rfl he ?_)
      exact
        { isRead := h.isRead
          busy := by simp [hl, h.busy]
          free := h.free
          id := h.id
          addr := by
            rw [List.length_append, List.length_singleton, ← Burst.beatAddr_succ, ← h.addr]
          len := by
            have hlen' := h.len
            rw [List.length_append, List.length_singleton]
            show (s.rdLen - 1).toNat + (rs.length + 1) = _
            omega
          left := pred_ne_zero hl
          noData := h.noData }

theorem quiet_of_not_waiting (hi : i.dataRvalid = true → s.waiting = true)
    (h : s.engState ≠ .waitRsp ∨ s.rvalid = true) : i.dataRvalid = false := by
  by_contra hr
  have hw := waiting_iff.mp (hi (Bool.not_eq_false _ ▸ hr))
  rcases h with h | h
  · exact h hw.1
  · rw [hw.2] at h
    cases h

/-- An edge shows what comes next of the burst that is served, or finishes it. -/
theorem Phase.step {todo : List (BurstCmd p)} {shown : List (PortEvent p)} (hc : s.Coherent)
    (h : Phase s todo shown) (hi : i.dataRvalid = true → s.waiting = true)
    (hlen : s.LenOk i) :
    Phase (s.step i) (todo ++ s.accepts i) (shown ++ s.portEvents i) ∨
      ∃ c rest, todo = c :: rest ∧ s.accepts i = [] ∧
        Finished (s.step i) c rest (shown ++ s.portEvents i) := by
  cases h with
  | idle hs hd hv hr hw =>
    exact Or.inl (step_idle hc hs hd hv hr hw
      (quiet_of_not_waiting hi (Or.inl (by simp [hs]))) hlen)
  | wEmpty b ds hs hd h =>
    exact Or.inl (step_wEmpty hs hd h (quiet_of_not_waiting hi (Or.inl (by simp [hs]))))
  | wFull b ds hs hd h =>
    exact Or.inl (step_wFull hs hd h (quiet_of_not_waiting hi (Or.inl (by simp [hs]))))
  | wIssue b ds hs hd h =>
    exact Or.inl (step_wIssue hs hd h (quiet_of_not_waiting hi (Or.inl (by simp [hs]))))
  | wWait b ds hs hd h =>
    have hacc := accepts_of_not_ok (not_ok_of_ne_idle (s := s) (i := i) (by simp [hs]))
    rw [hacc, List.append_nil]
    exact (step_wWait hc hs hd h).imp id fun hf => ⟨_, _, rfl, rfl, hf⟩
  | rActive b rs hs hv he h =>
    exact Or.inl (step_rActive hs hv he h (quiet_of_not_waiting hi (Or.inl (by simp [hs]))))
  | rIssue b rs hs hv he h =>
    exact Or.inl (step_rIssue hs hv he h (quiet_of_not_waiting hi (Or.inl (by simp [hs]))))
  | rWait b rs hs hv he h => exact Or.inl (step_rWait hc hs hv he h)
  | rAnswer b rs r hs hv he h hx =>
    have hacc := accepts_of_not_ok (not_ok_of_ne_idle (s := s) (i := i) (by simp [hs]))
    rw [hacc, List.append_nil]
    exact (step_rAnswer hs hv he h hx (quiet_of_not_waiting hi (Or.inr hv))).imp id
      fun hf => ⟨_, _, rfl, rfl, hf⟩

/-- All bursts but those in `todo` have been served one after the other. -/
def Bridged (s : SaxiToHost p) (acc : List (BurstCmd p)) (shown : List (PortEvent p)) : Prop :=
  ∃ (done : List (Service p)) (todo : List (BurstCmd p)) (now : List (PortEvent p)),
    Phase s todo now ∧ acc = done.map Service.cmd ++ todo ∧
      shown = done.flatMap Service.events ++ now

theorem Bridged.step {acc : List (BurstCmd p)} {shown : List (PortEvent p)} (hc : s.Coherent)
    (h : Bridged s acc shown) (hi : i.dataRvalid = true → s.waiting = true)
    (hlen : s.LenOk i) :
    Bridged (s.step i) (acc ++ s.accepts i) (shown ++ s.portEvents i) := by
  obtain ⟨done, todo, now, hphase, rfl, rfl⟩ := h
  rcases hphase.step hc hi hlen with hnext | ⟨c, rest, rfl, hacc, v, rfl, hv, hnext⟩
  · exact ⟨done, _, _, hnext, List.append_assoc .., List.append_assoc ..⟩
  · refine ⟨done ++ [v], rest, [], hnext, ?_, ?_⟩
    · rw [hacc, List.append_nil, List.map_append, List.append_assoc]
      rfl
    · rw [List.append_nil, List.flatMap_append, List.append_assoc, ← hv]
      simp

/-! ### The accesses that are not answered -/

theorem Phase.countP {todo : List (BurstCmd p)} {now : List (PortEvent p)}
    (h : Phase s todo now) : now.countP PortEvent.isGnt =
      now.countP PortEvent.isRsp + if s.waiting = true then 1 else 0 := by
  cases h with
  | idle hs => simp [waiting, hs]
  | wEmpty b ds hs => simp [waiting, hs, b.countP_writeBeats]
  | wFull b ds hs =>
    simp [waiting, hs, b.countP_writeBeats, PortEvent.isGnt, PortEvent.isRsp]
  | wIssue b ds hs =>
    simp [waiting, hs, b.countP_writeBeats, PortEvent.isGnt, PortEvent.isRsp]
  | wWait b ds hs _ h =>
    simp [waiting, hs, h.noR, b.countP_writeBeats, PortEvent.isGnt, PortEvent.isRsp]
  | rActive b rs hs => simp [waiting, hs, b.countP_readBeats]
  | rIssue b rs hs => simp [waiting, hs, b.countP_readBeats]
  | rWait b rs hs hv =>
    simp [waiting, hs, hv, b.countP_readBeats, PortEvent.isGnt, PortEvent.isRsp]
  | rAnswer b rs r hs hv =>
    rw [List.countP_append, List.countP_append, b.countP_readBeats]
    simp [waiting, hs, hv]
    rfl

theorem Bridged.countP {acc : List (BurstCmd p)} {shown : List (PortEvent p)}
    (h : Bridged s acc shown) : shown.countP PortEvent.isGnt =
      shown.countP PortEvent.isRsp + if s.waiting = true then 1 else 0 := by
  obtain ⟨done, todo, now, hphase, -, rfl⟩ := h
  have hdone : (done.flatMap Service.events).countP PortEvent.isGnt =
      (done.flatMap Service.events).countP PortEvent.isRsp := by
    induction done with
    | nil => rfl
    | cons v done ih =>
      rw [List.flatMap_cons, List.countP_append, List.countP_append, v.countP_events, ih]
  rw [List.countP_append, List.countP_append, hdone, hphase.countP, Nat.add_assoc]

end SaxiToHost

end AxisSystolic
