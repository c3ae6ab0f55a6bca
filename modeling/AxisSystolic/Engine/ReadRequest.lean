import AxisSystolic.Engine.Common
import AxisSystolic.Sync.Machine

/-!
# The requests of the read engine (`alex_axi_dma_rd.sv`)

A descriptor is taken in while nothing is left of the one before and its command has gone
on to the part that receives the data.  From then on the engine requests one burst after
the other, each when the one before has been accepted.

So what has been requested, is being requested and is still left is what the descriptors
ask for, burst by burst (`Requests.step`).
-/

namespace AxisSystolic

open Sync

/-- A read descriptor. -/
structure RdDesc (p : AxiDmaParams) where
  addr : BitVec 32
  len : BitVec 32
  tag : BitVec p.tagWidth
  side : AxisSide p.side

/-- The registers `axis_cmd_*`, and those that they are loaded into. -/
structure RdCmd (p : AxiDmaParams) where
  offset : BitVec p.offsetWidth
  lastCycleOffset : BitVec p.offsetWidth
  inputCycleCount : BitVec p.cycleCountWidth
  outputCycleCount : BitVec p.cycleCountWidth
  bubbleCycle : Bool
  tag : BitVec p.tagWidth
  side : AxisSide p.side

inductive RdAxiState where
  | idle
  | start
deriving DecidableEq

/-- The inputs of the part that makes the requests. -/
structure RdRequestIn (p : AxiDmaParams) where
  desc : RdDesc p
  descValid : Bool
  arready : Bool
  enable : Bool
  cmdReady : Bool

/-- Its registers. -/
structure RdRequest (p : AxiDmaParams) where
  state : RdAxiState
  addr : BitVec 32
  opWordCount : BitVec 32
  cmd : RdCmd p
  cmdValid : Bool
  descReady : Bool
  ar : AxiBurst
  arvalid : Bool

variable {p : AxiDmaParams}

namespace RdDesc

variable (d : RdDesc p)

/-- What the part that receives the data is told. -/
def cmd : RdCmd p :=
  let offset : BitVec p.offsetWidth :=
    if 1 < p.strbWidth then
      (BitVec.ofNat 32 p.strbWidth - (d.addr &&& p.offsetMask)).setWidth p.offsetWidth
    else 0
  { offset
    lastCycleOffset := (d.len &&& p.offsetMask).setWidth p.offsetWidth
    inputCycleCount := (p.cycles d.addr d.len).setWidth p.cycleCountWidth
    outputCycleCount := ((d.len - 1) >>> p.burstSize).setWidth p.cycleCountWidth
    bubbleCycle := decide (0 < offset)
    tag := d.tag
    side := d.side }

/-- The bursts that it asks for. -/
def bursts : List AxiBurst := p.transfer d.addr d.len

end RdDesc

namespace RdRequest

def reset (p : AxiDmaParams) : RdRequest p where
  state := .idle
  addr := 0
  opWordCount := 0
  cmd := ⟨0, 0, 0, 0, false, 0, p.sideReset⟩
  cmdValid := false
  descReady := false
  ar := ⟨0, 0⟩
  arvalid := false

variable (s : RdRequest p) (i : RdRequestIn p)

/-- A descriptor is taken in. -/
def accepts : Bool := s.descReady && i.descValid

def arNext : Bool := s.arvalid && !i.arready

def cmdNext : Bool := s.cmdValid && !i.cmdReady

/-- A clock edge. -/
def step : RdRequest p :=
  match s.state with
  | .idle =>
    if s.accepts i then
      { state := .start
        addr := i.desc.addr
        opWordCount := i.desc.len
        cmd := i.desc.cmd
        cmdValid := true
        descReady := false
        ar := s.ar
        arvalid := s.arNext i }
    else
      { s with
        cmdValid := s.cmdNext i
        descReady := !s.cmdValid && i.enable
        arvalid := s.arNext i }
  | .start =>
    if !s.arvalid then
      let tr := p.trWordCount s.addr s.opWordCount
      let more := decide (0 < s.opWordCount - tr)
      { state := if more then .start else .idle
        addr := s.addr + tr
        opWordCount := s.opWordCount - tr
        cmd := s.cmd
        cmdValid := s.cmdNext i
        descReady := if more then false else !s.cmdValid && i.enable
        ar := p.burst s.addr s.opWordCount
        arvalid := true }
    else
      { s with
        cmdValid := s.cmdNext i
        descReady := false
        arvalid := s.arNext i }

/-- The descriptor that is taken in. -/
def taken : Option (RdDesc p) := if s.accepts i then some i.desc else none

/-- The request that is accepted. -/
def arTaken : Option AxiBurst := if s.arvalid && i.arready then some s.ar else none

/-- The bursts of the descriptor that are not requested yet. -/
def left : List AxiBurst :=
  match s.state with
  | .idle => []
  | .start => p.transfer s.addr s.opWordCount

variable {s i}

/-! ### One cycle -/

/-- `ds` have been taken in and `ars` accepted; the command of `pend` waits. -/
structure Requests (ds : List (RdDesc p)) (ars : List AxiBurst) (pend : Option (RdDesc p))
    (s : RdRequest p) : Prop where
  bursts : ds.flatMap RdDesc.bursts = ars ++ (if s.arvalid then [s.ar] else []) ++ s.left
  valid : s.cmdValid = pend.isSome
  cmd : ∀ d ∈ pend, s.cmd = d.cmd
  ready : s.descReady = true → s.cmdValid = false ∧ s.state = .idle

/-- The descriptor whose command waits after the cycle. -/
def pendNext (s : RdRequest p) (i : RdRequestIn p) (pend : Option (RdDesc p)) :
    Option (RdDesc p) :=
  if s.accepts i then some i.desc else if i.cmdReady then none else pend

theorem requests_reset : Requests [] [] none (reset p) :=
  ⟨rfl, rfl, fun _ h => absurd h (Option.not_mem_none _), fun h => absurd h Bool.false_ne_true⟩

variable {ds : List (RdDesc p)} {ars : List AxiBurst} {pend : Option (RdDesc p)}

theorem ar_split (s : RdRequest p) (i : RdRequestIn p) : (if s.arvalid then [s.ar] else [])
    = (s.arTaken i).toList ++ if s.arNext i then [s.ar] else [] := by
  cases hv : s.arvalid <;> cases hr : i.arready <;> simp [arTaken, arNext, hv, hr]

/-- A burst that is begun is the first of those that were left. -/
theorem left_eq (hst : s.state = .start) : s.left = p.burst s.addr s.opWordCount ::
    if s.opWordCount - p.trWordCount s.addr s.opWordCount = 0 then []
    else p.transfer (s.addr + p.trWordCount s.addr s.opWordCount)
      (s.opWordCount - p.trWordCount s.addr s.opWordCount) := by
  rw [left, hst]
  exact EngineParams.transfer_eq _ _ _

theorem mem_of_pendNext {d : RdDesc p} (hno : s.accepts i = false) (hd : d ∈ s.pendNext i pend) :
    d ∈ pend := by
  rw [pendNext, hno] at hd
  cases hc : i.cmdReady with
  | true => simp [hc] at hd
  | false => simpa [hc] using hd

theorem Requests.step (h : Requests ds ars pend s) (i : RdRequestIn p) :
    Requests (ds ++ (s.taken i).toList) (ars ++ (s.arTaken i).toList) (s.pendNext i pend)
      (s.step i) := by
  have hsplit := ar_split s i
  have hb := h.bursts
  rw [hsplit, ← List.append_assoc] at hb
  cases hst : s.state with
  | idle =>
    cases ha : s.accepts i with
    | true =>
      -- a new descriptor: all of its bursts are left
      have hleft : s.left = [] := by rw [left, hst]
      refine ⟨?_, ?_, ?_, ?_⟩
      · rw [taken, ha, List.flatMap_append, hb, hleft, List.append_nil]
        simp [RdRequest.step, hst, ha, left, RdDesc.bursts]
      · simp [RdRequest.step, hst, ha, pendNext]
      · simp [RdRequest.step, hst, ha, pendNext]
      · simp [RdRequest.step, hst, ha]
    | false =>
      refine ⟨?_, ?_, ?_, ?_⟩
      · rw [taken, ha, List.flatMap_append, hb]
        simp [RdRequest.step, hst, ha, left]
      · have := h.valid
        cases hc : i.cmdReady <;> simp [RdRequest.step, hst, ha, pendNext, cmdNext, hc, this]
      · intro d hd
        have hkeep : (s.step i).cmd = s.cmd := by simp [RdRequest.step, hst, ha]
        rw [hkeep]
        exact h.cmd d (mem_of_pendNext ha hd)
      · cases hv : s.cmdValid <;> simp [RdRequest.step, hst, ha, cmdNext, hv]
  | start =>
    have hno : s.accepts i = false := by
      by_contra ha
      rw [Bool.not_eq_false, accepts, Bool.and_eq_true] at ha
      exact absurd ((h.ready ha.1).2.symm.trans hst) nofun
    have hvalid : (s.step i).cmdValid = (s.pendNext i pend).isSome := by
      have := h.valid
      cases hc : i.cmdReady <;> cases hv : s.arvalid <;>
        simp [RdRequest.step, hst, hno, pendNext, cmdNext, hc, hv, this]
    have hcmd : ∀ d ∈ s.pendNext i pend, (s.step i).cmd = d.cmd := by
      intro d hd
      have hkeep : (s.step i).cmd = s.cmd := by
        cases hv : s.arvalid <;> simp [RdRequest.step, hst, hv]
      rw [hkeep]
      exact h.cmd d (mem_of_pendNext hno hd)
    cases hv : s.arvalid with
    | true =>
      refine ⟨?_, hvalid, hcmd, ?_⟩
      · rw [taken, hno, List.flatMap_append, hb]
        simp [RdRequest.step, hst, hv, left]
      · simp [RdRequest.step, hst, hv]
    | false =>
      have htaken : s.arTaken i = none := by simp [arTaken, hv]
      have hnext : s.arNext i = false := by simp [arNext, hv]
      by_cases hz : s.opWordCount - p.trWordCount s.addr s.opWordCount = 0
      · refine ⟨?_, hvalid, hcmd, ?_⟩
        · rw [taken, hno, List.flatMap_append, hb, left_eq hst, if_pos hz, hnext, htaken]
          simp [RdRequest.step, hst, hv, hz, left]
        · cases hw : s.cmdValid <;> simp [RdRequest.step, hst, hv, hz, cmdNext, hw]
      · have hpos : 0#32 < s.opWordCount - p.trWordCount s.addr s.opWordCount :=
          (BitVec.pos_iff_ne_zero _).mpr hz
        refine ⟨?_, hvalid, hcmd, ?_⟩
        · rw [taken, hno, List.flatMap_append, hb, left_eq hst, if_neg hz, hnext, htaken]
          simp [RdRequest.step, hst, hv, hpos, left]
        · simp [RdRequest.step, hst, hv, hpos]

/-- A request that is not accepted stays. -/
theorem step_of_stall (hv : s.arvalid = true) (hr : i.arready = false) :
    (s.step i).arvalid = true ∧ (s.step i).ar = s.ar := by
  cases hst : s.state <;> cases ha : s.accepts i <;>
    simp [RdRequest.step, hst, ha, hv, hr, arNext]

/-- A burst that is left is begun in the next cycle. -/
theorem arvalid_of_left (hl : s.left ≠ []) (hv : s.arvalid = false) :
    (s.step i).arvalid = true := by
  have hst : s.state = .start := by
    cases hst : s.state with
    | idle => exact absurd (by rw [left, hst]) hl
    | start => rfl
  simp [RdRequest.step, hst, hv]

theorem idle_of_left (hl : s.left = []) : s.state = .idle := by
  cases hst : s.state with
  | idle => rfl
  | start =>
    rw [left_eq hst] at hl
    exact absurd hl (List.cons_ne_nil _ _)

/-- With nothing to do the engine is ready for a descriptor, if it may. -/
theorem descReady_of_idle (hst : s.state = .idle) (hv : s.cmdValid = false)
    (ha : s.accepts i = false) (hen : i.enable = true) : (s.step i).descReady = true := by
  simp [RdRequest.step, hst, ha, hv, hen]

end RdRequest

end AxisSystolic
