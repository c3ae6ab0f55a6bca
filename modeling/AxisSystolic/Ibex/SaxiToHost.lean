import AxisSystolic.Sync.Machine
import Mathlib.Data.BitVec

/-!
# The burst bridge (`saxi_to_host.sv`)

The bridge accepts one read and one write burst at a time and breaks them into
single accesses of the host port.  A read and a write burst that are accepted in
one cycle are both latched, and the write burst is done first.

`AXI_DATA_WIDTH` must be 32 and is fixed.  The registers that are written and
never read (`have_grant` and the payload of the R hold buffer) and the input
`s_axi_wlast`, which only a comment looks at, are left out.
-/

namespace AxisSystolic

open Sync

/-- The parameters of `saxi_to_host`. -/
structure SaxiParams where
  axiIdWidth : ℕ
  addrWidth : ℕ

/-- The states of the engine. -/
inductive EngState where
  | idle | rActive | wActive | issue | waitRsp
deriving DecidableEq

structure SaxiIn (p : SaxiParams) where
  arid : BitVec p.axiIdWidth
  araddr : BitVec p.addrWidth
  arlen : BitVec 8
  arsize : BitVec 3
  arburst : BitVec 2
  arvalid : Bool
  rready : Bool
  awid : BitVec p.axiIdWidth
  awaddr : BitVec p.addrWidth
  awlen : BitVec 8
  awsize : BitVec 3
  awburst : BitVec 2
  awvalid : Bool
  wdata : BitVec 32
  wstrb : BitVec 4
  wvalid : Bool
  bready : Bool
  dataGnt : Bool
  dataRvalid : Bool
  dataErr : Bool
  dataRdata : BitVec 32

/-- The registers of `saxi_to_host`. -/
structure SaxiToHost (p : SaxiParams) where
  engState : EngState
  rdCmdValid : Bool
  rdId : BitVec p.axiIdWidth
  rdAddr : BitVec 32
  rdLen : BitVec 8
  rdBusy : Bool
  wrCmdValid : Bool
  wrId : BitVec p.axiIdWidth
  wrAddr : BitVec 32
  wrLen : BitVec 8
  wrBusy : Bool
  wrDataQ : BitVec 32
  wrStrbQ : BitVec 4
  wrDataValid : Bool
  curIsWrite : Bool
  errorSeen : Bool
  rHoldValid : Bool
  rid : BitVec p.axiIdWidth
  rdata : BitVec 32
  rresp : BitVec 2
  rlast : Bool
  rvalid : Bool
  bid : BitVec p.axiIdWidth
  bresp : BitVec 2
  bvalid : Bool
deriving DecidableEq

def axiBurstIncr : BitVec 2 := 1
def respOkay : BitVec 2 := 0
def respSlverr : BitVec 2 := 2

def nextAddr (a : BitVec 32) : BitVec 32 := a + 4

namespace SaxiToHost

variable {p : SaxiParams}

/-- `rst_n` low. -/
def reset (p : SaxiParams) : SaxiToHost p where
  engState := .idle
  rdCmdValid := false
  rdId := 0
  rdAddr := 0
  rdLen := 0
  rdBusy := false
  wrCmdValid := false
  wrId := 0
  wrAddr := 0
  wrLen := 0
  wrBusy := false
  wrDataQ := 0
  wrStrbQ := 0
  wrDataValid := false
  curIsWrite := false
  errorSeen := false
  rHoldValid := false
  rid := 0
  rdata := 0
  rresp := respOkay
  rlast := false
  rvalid := false
  bid := 0
  bresp := respOkay
  bvalid := false

variable (s : SaxiToHost p) (i : SaxiIn p)

/-! ### Address acceptance -/

def rRespPending : Bool := s.rvalid || s.rHoldValid
def bRespPending : Bool := s.bvalid

def arOk : Bool :=
  i.arvalid && i.arsize == 2 && i.arburst == axiBurstIncr && i.araddr.setWidth 2 == 0 &&
    !s.rdBusy && !s.wrBusy && s.engState == .idle && !s.rRespPending

def awOk : Bool :=
  i.awvalid && i.awsize == 2 && i.awburst == axiBurstIncr && i.awaddr.setWidth 2 == 0 &&
    !s.rdBusy && !s.wrBusy && s.engState == .idle && !s.bRespPending

/-! ### Handshakes -/

def wantWbeat : Bool := s.engState == .wActive && !s.wrDataValid

def wHs : Bool := i.wvalid && s.wantWbeat
def rHs : Bool := s.rvalid && i.rready
def bHs : Bool := s.bvalid && i.bready

def pickWrite : Bool := s.wrCmdValid
def pickRead : Bool := s.rdCmdValid && !s.wrCmdValid

/-! ### The host port -/

def issueWrite : Bool := s.engState == .wActive || (s.engState == .issue && s.curIsWrite)

def issueAddr : BitVec 32 := if s.issueWrite then s.wrAddr else s.rdAddr
def issueBe : BitVec 4 := if s.issueWrite then s.wrStrbQ else 0xF
def issueWdata : BitVec 32 := if s.issueWrite then s.wrDataQ else 0

def dataReq : Bool := s.engState == .issue
def dataAddr : BitVec 32 := if s.engState = .issue then s.issueAddr else 0
def dataWe : Bool := if s.engState = .issue then s.curIsWrite else false
def dataBe : BitVec 4 := if s.engState = .issue then s.issueBe else 0
def dataWdata : BitVec 32 := if s.engState = .issue then s.issueWdata else 0

/-! ### A clock edge -/

def engStateN : EngState :=
  match s.engState with
  | .idle => if s.pickWrite then .wActive else if s.pickRead then .rActive else .idle
  | .wActive => if s.wrDataValid then .issue else .wActive
  | .rActive => .issue
  | .issue => if i.dataGnt then .waitRsp else .issue
  | .waitRsp =>
    if s.curIsWrite then
      if i.dataRvalid then if s.wrLen == 1 then .idle else .wActive else .waitRsp
    else
      if s.rHs i then if s.rdLen == 1 then .idle else .rActive else .waitRsp

/-- A response of the host to a write. -/
def wrRsp : Bool := s.engState == .waitRsp && s.curIsWrite && i.dataRvalid

/-- The response of the host to a read is captured. -/
def rdRsp : Bool :=
  !s.curIsWrite && s.engState == .waitRsp && !s.rHoldValid && !s.rvalid && i.dataRvalid

/-- The R handshake counts the beat. -/
def rdBeat : Bool := s.engState == .waitRsp && !s.curIsWrite && s.rHs i

def rspResp : BitVec 2 := if i.dataErr || s.errorSeen then respSlverr else respOkay

/-- The registers `rd_busy` and `rd_cmd_valid` are cleared. -/
def rdDone : Bool := !s.curIsWrite && s.rHs i && s.rdLen == 1

/-- The registers `wr_busy` and `wr_cmd_valid` are cleared. -/
def wrDone : Bool := s.curIsWrite && i.dataRvalid && s.wrLen == 1

-- The command registers and the beat counters are driven from two `always` blocks.
-- Here the later block is given precedence; with a host that answers only what it
-- has granted the two never drive in one cycle.
def step : SaxiToHost p where
  engState := s.engStateN i
  rdCmdValid := if s.rdDone i then false else if s.arOk i then true else s.rdCmdValid
  rdId := if s.arOk i then i.arid else s.rdId
  rdAddr :=
    if s.rdBeat i && s.rdLen != 0 then nextAddr s.rdAddr
    else if s.arOk i then i.araddr.setWidth 32
    else s.rdAddr
  rdLen :=
    if s.rdBeat i && s.rdLen != 0 then s.rdLen - 1
    else if s.arOk i then i.arlen + 1
    else s.rdLen
  rdBusy := if s.rdDone i then false else if s.arOk i then true else s.rdBusy
  wrCmdValid := if s.wrDone i then false else if s.awOk i then true else s.wrCmdValid
  wrId := if s.awOk i then i.awid else s.wrId
  wrAddr :=
    if s.wrRsp i && s.wrLen != 0 then nextAddr s.wrAddr
    else if s.awOk i then i.awaddr.setWidth 32
    else s.wrAddr
  wrLen :=
    if s.wrRsp i && s.wrLen != 0 then s.wrLen - 1
    else if s.awOk i then i.awlen + 1
    else s.wrLen
  wrBusy := if s.wrDone i then false else if s.awOk i then true else s.wrBusy
  wrDataQ := if s.wHs i then i.wdata else s.wrDataQ
  wrStrbQ := if s.wHs i then i.wstrb else s.wrStrbQ
  wrDataValid := if s.wrRsp i then false else if s.wHs i then true else s.wrDataValid
  curIsWrite :=
    if s.engState = .idle then
      if s.pickWrite then true else if s.pickRead then false else s.curIsWrite
    else s.curIsWrite
  errorSeen :=
    if s.engState = .idle then false
    else if s.engState == .waitRsp && i.dataRvalid && i.dataErr then true
    else s.errorSeen
  rHoldValid := if s.rdRsp i then true else if s.rHs i then false else s.rHoldValid
  rid := if s.rdRsp i then s.rdId else s.rid
  rdata := if s.rdRsp i then i.dataRdata else s.rdata
  rresp := if s.rdRsp i then s.rspResp i else s.rresp
  rlast := if s.rdRsp i then s.rdLen == 1 else if s.rHs i then false else s.rlast
  rvalid := if s.rdRsp i then true else if s.rHs i then false else s.rvalid
  bid := if s.wrRsp i && s.wrLen == 1 then s.wrId else s.bid
  bresp := if s.wrRsp i && s.wrLen == 1 then s.rspResp i else s.bresp
  bvalid :=
    if s.wrRsp i && s.wrLen == 1 then true else if s.bHs i then false else s.bvalid

/-! ### What a clock edge does -/

section Step

variable {s i}

/-- `s_axi_bvalid` where no B response is raised. -/
def bNext (s : SaxiToHost p) (i : SaxiIn p) : Bool := if s.bHs i then false else s.bvalid

theorem not_bNext (h : s.bvalid = false) : s.bNext i = false := by simp [bNext, bHs, h]

theorem step_bvalid_of_not_wrDone (h : s.wrDone i = false) : (s.step i).bvalid = s.bNext i := by
  show (if (s.wrRsp i && s.wrLen == 1) = true then true else _) = _
  rw [if_neg]
  · rfl
  · intro hr
    simp only [wrRsp, Bool.and_eq_true] at hr
    rw [wrDone, hr.1.1.2, hr.1.2, hr.2] at h
    cases h

theorem not_ok_of_ne_idle (h : s.engState ≠ .idle) : s.arOk i = false ∧ s.awOk i = false := by
  simp [arOk, awOk, h]

theorem not_ok_of_busy (h : s.rdBusy = true ∨ s.wrBusy = true) :
    s.arOk i = false ∧ s.awOk i = false := by
  rcases h with h | h <;> simp [arOk, awOk, h]

theorem step_of_idle_write (hs : s.engState = .idle) (hw : s.wrBusy = true)
    (hc : s.wrCmdValid = true) (hv : s.rvalid = false) (hi : i.dataRvalid = false) :
    s.step i = { s with
      engState := .wActive
      curIsWrite := true
      errorSeen := false
      bvalid := s.bNext i } := by
  have hok := not_ok_of_busy (i := i) (Or.inr hw)
  simp [step, engStateN, hs, hc, hv, hi, hok, pickWrite, rdDone, wrDone, rdBeat, wrRsp, rHs,
    rdRsp, wHs, wantWbeat, bNext]

theorem step_of_idle_read (hs : s.engState = .idle) (hr : s.rdBusy = true)
    (hc : s.rdCmdValid = true) (hw : s.wrCmdValid = false) (hv : s.rvalid = false)
    (hi : i.dataRvalid = false) :
    s.step i = { s with
      engState := .rActive
      curIsWrite := false
      errorSeen := false
      bvalid := s.bNext i } := by
  have hok := not_ok_of_busy (i := i) (Or.inl hr)
  simp [step, engStateN, hs, hc, hw, hv, hi, hok, pickWrite, pickRead, rdDone, wrDone, rdBeat,
    wrRsp, rHs, rdRsp, wHs, wantWbeat, bNext]

theorem step_of_free (hs : s.engState = .idle) (hr : s.rdCmdValid = false)
    (hw : s.wrCmdValid = false) (hv : s.rvalid = false) (hi : i.dataRvalid = false) :
    s.step i = { s with
      rdCmdValid := s.arOk i
      rdId := if s.arOk i then i.arid else s.rdId
      rdAddr := if s.arOk i then i.araddr.setWidth 32 else s.rdAddr
      rdLen := if s.arOk i then i.arlen + 1 else s.rdLen
      rdBusy := s.arOk i || s.rdBusy
      wrCmdValid := s.awOk i
      wrId := if s.awOk i then i.awid else s.wrId
      wrAddr := if s.awOk i then i.awaddr.setWidth 32 else s.wrAddr
      wrLen := if s.awOk i then i.awlen + 1 else s.wrLen
      wrBusy := s.awOk i || s.wrBusy
      errorSeen := false
      bvalid := s.bNext i } := by
  simp [step, engStateN, hs, hr, hw, hv, hi, pickWrite, pickRead, rdDone, wrDone, rdBeat,
    wrRsp, rHs, rdRsp, wHs, wantWbeat, bNext]

theorem step_of_wActive (hs : s.engState = .wActive) (hv : s.rvalid = false)
    (hi : i.dataRvalid = false) :
    s.step i = { s with
      engState := if s.wrDataValid then .issue else .wActive
      wrDataQ := if s.wHs i then i.wdata else s.wrDataQ
      wrStrbQ := if s.wHs i then i.wstrb else s.wrStrbQ
      wrDataValid := s.wHs i || s.wrDataValid
      bvalid := s.bNext i } := by
  have hok := not_ok_of_ne_idle (s := s) (i := i) (by simp [hs])
  simp [step, engStateN, hs, hv, hi, hok, rdDone, wrDone, rdBeat, wrRsp, rHs, rdRsp, bNext]

theorem step_of_rActive (hs : s.engState = .rActive) (hv : s.rvalid = false)
    (hi : i.dataRvalid = false) :
    s.step i = { s with engState := .issue, bvalid := s.bNext i } := by
  have hok := not_ok_of_ne_idle (s := s) (i := i) (by simp [hs])
  simp [step, engStateN, hs, hv, hi, hok, rdDone, wrDone, rdBeat, wrRsp, rHs, rdRsp, wHs,
    wantWbeat, bNext]

theorem step_of_issue (hs : s.engState = .issue) (hv : s.rvalid = false)
    (hi : i.dataRvalid = false) :
    s.step i = { s with
      engState := if i.dataGnt then .waitRsp else .issue
      bvalid := s.bNext i } := by
  have hok := not_ok_of_ne_idle (s := s) (i := i) (by simp [hs])
  simp [step, engStateN, hs, hv, hi, hok, rdDone, wrDone, rdBeat, wrRsp, rHs, rdRsp, wHs,
    wantWbeat, bNext]

/-- The engine waits for the host or for the master. -/
theorem step_of_waitRsp (hs : s.engState = .waitRsp) (hi : i.dataRvalid = false)
    (hr : s.rHs i = false) : s.step i = { s with bvalid := s.bNext i } := by
  have hok := not_ok_of_ne_idle (s := s) (i := i) (by simp [hs])
  cases hw : s.curIsWrite <;>
    simp [step, engStateN, hs, hi, hr, hw, hok, rdDone, wrDone, rdBeat, wrRsp, rdRsp, wHs,
      wantWbeat, bNext]

/-- The answer to a write, whatever is left of the burst. -/
theorem step_of_wrAnswer (hs : s.engState = .waitRsp) (hw : s.curIsWrite = true)
    (hv : s.rvalid = false) (hi : i.dataRvalid = true) :
    s.step i = { s with
      engState := if s.wrLen = 1#8 then .idle else .wActive
      wrCmdValid := !decide (s.wrLen = 1#8) && s.wrCmdValid
      wrAddr := (s.step i).wrAddr
      wrLen := (s.step i).wrLen
      wrBusy := !decide (s.wrLen = 1#8) && s.wrBusy
      wrDataValid := false
      errorSeen := i.dataErr || s.errorSeen
      bid := if s.wrLen = 1#8 then s.wrId else s.bid
      bresp := if s.wrLen = 1#8 then s.rspResp i else s.bresp
      bvalid := decide (s.wrLen = 1#8) || s.bNext i } := by
  have hok := not_ok_of_ne_idle (s := s) (i := i) (by simp [hs])
  by_cases hl1 : s.wrLen = 1#8 <;>
    simp [step, engStateN, hs, hi, hv, hw, hl1, hok, rdDone, wrDone, rdBeat, wrRsp, rdRsp,
      rHs, wHs, wantWbeat, bNext]

/-- The host answers a write. -/
theorem step_of_wrRsp (hs : s.engState = .waitRsp) (hw : s.curIsWrite = true)
    (hv : s.rvalid = false) (hl : s.wrLen ≠ 0#8) (hi : i.dataRvalid = true) :
    s.step i = { s with
      engState := if s.wrLen = 1#8 then .idle else .wActive
      wrCmdValid := !decide (s.wrLen = 1#8) && s.wrCmdValid
      wrAddr := nextAddr s.wrAddr
      wrLen := s.wrLen - 1
      wrBusy := !decide (s.wrLen = 1#8) && s.wrBusy
      wrDataValid := false
      errorSeen := i.dataErr || s.errorSeen
      bid := if s.wrLen = 1#8 then s.wrId else s.bid
      bresp := if s.wrLen = 1#8 then s.rspResp i else s.bresp
      bvalid := decide (s.wrLen = 1#8) || s.bNext i } := by
  have haddr : (s.step i).wrAddr = nextAddr s.wrAddr := if_pos (by simp [wrRsp, hs, hw, hi, hl])
  have hlen : (s.step i).wrLen = s.wrLen - 1 := if_pos (by simp [wrRsp, hs, hw, hi, hl])
  rw [step_of_wrAnswer hs hw hv hi, haddr, hlen]

/-- The host answers a read. -/
theorem step_of_rdRsp (hs : s.engState = .waitRsp) (hw : s.curIsWrite = false)
    (hv : s.rvalid = false) (hh : s.rHoldValid = false) (hi : i.dataRvalid = true) :
    s.step i = { s with
      errorSeen := i.dataErr || s.errorSeen
      rHoldValid := true
      rid := s.rdId
      rdata := i.dataRdata
      rresp := s.rspResp i
      rlast := s.rdLen == 1
      rvalid := true
      bvalid := s.bNext i } := by
  have hok := not_ok_of_ne_idle (s := s) (i := i) (by simp [hs])
  simp [step, engStateN, hs, hi, hv, hw, hh, hok, rdDone, wrDone, rdBeat, wrRsp, rdRsp, rHs, wHs,
    wantWbeat, bNext]

/-- A beat of a read is taken, whatever is left of the burst. -/
theorem step_of_rTaken (hs : s.engState = .waitRsp) (hw : s.curIsWrite = false)
    (hi : i.dataRvalid = false) (hr : s.rHs i = true) :
    s.step i = { s with
      engState := if s.rdLen = 1#8 then .idle else .rActive
      rdCmdValid := !decide (s.rdLen = 1#8) && s.rdCmdValid
      rdAddr := (s.step i).rdAddr
      rdLen := (s.step i).rdLen
      rdBusy := !decide (s.rdLen = 1#8) && s.rdBusy
      rHoldValid := false
      rlast := false
      rvalid := false
      bvalid := s.bNext i } := by
  have hok := not_ok_of_ne_idle (s := s) (i := i) (by simp [hs])
  by_cases hl1 : s.rdLen = 1#8 <;>
    simp [step, engStateN, hs, hi, hr, hw, hl1, hok, rdDone, wrDone, rdBeat, wrRsp, rdRsp,
      wHs, wantWbeat, bNext]

/-- The master takes a beat of a read. -/
theorem step_of_rHs (hs : s.engState = .waitRsp) (hw : s.curIsWrite = false)
    (hl : s.rdLen ≠ 0#8) (hi : i.dataRvalid = false) (hr : s.rHs i = true) :
    s.step i = { s with
      engState := if s.rdLen = 1#8 then .idle else .rActive
      rdCmdValid := !decide (s.rdLen = 1#8) && s.rdCmdValid
      rdAddr := nextAddr s.rdAddr
      rdLen := s.rdLen - 1
      rdBusy := !decide (s.rdLen = 1#8) && s.rdBusy
      rHoldValid := false
      rlast := false
      rvalid := false
      bvalid := s.bNext i } := by
  have haddr : (s.step i).rdAddr = nextAddr s.rdAddr := if_pos (by simp [rdBeat, hs, hw, hr, hl])
  have hlen : (s.step i).rdLen = s.rdLen - 1 := if_pos (by simp [rdBeat, hs, hw, hr, hl])
  rw [step_of_rTaken hs hw hi hr, haddr, hlen]

end Step

end SaxiToHost

/-- The clocked machine of `saxi_to_host`. -/
def saxiToHost (p : SaxiParams) : Machine (SaxiToHost p) (SaxiIn p) where
  reset := SaxiToHost.reset p
  step := SaxiToHost.step

end AxisSystolic
