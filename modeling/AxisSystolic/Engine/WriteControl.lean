import AxisSystolic.Engine.Common
import AxisSystolic.Sync.Machine

/-!
# The data of the write engine (`alex_axi_dma_wr.sv`)

A descriptor is taken in when the engine is idle.  The engine then takes one frame of the
stream, shifts its bytes to where they belong in a word, and puts a beat into its output
FIFO with each beat that it takes, one burst after the other.

* A frame whose last beat is not used up by the shift has one beat more
  (`extraCycle`).
* A frame that ends within a burst is followed by beats that write nothing
  (`finishBurst`).
* A frame that goes on after the descriptor is dropped up to its end (`dropData`).

With the end of each burst an entry goes to the part that waits for the responses.
-/

namespace AxisSystolic

/-- A write descriptor. -/
structure WrDesc (p : AxiDmaParams) where
  addr : BitVec 32
  len : BitVec 32
  tag : BitVec p.tagWidth

/-- A beat of the stream that is written. -/
abbrev WrAxis (p : AxiDmaParams) : Type := AxisBeat (8 * p.strbWidth) p.strbWidth p.side

/-- `m_axi_wdata`, `m_axi_wstrb` and `m_axi_wlast`. -/
structure WrBeat (p : AxiDmaParams) where
  data : BitVec (8 * p.strbWidth)
  strb : BitVec p.strbWidth
  last : Bool

/-- `status_fifo_wr_*`. -/
structure WrEntry (p : AxiDmaParams) where
  len : BitVec 32
  tag : BitVec p.tagWidth
  side : AxisSide p.side
  last : Bool

inductive WrState where
  | idle
  | start
  | write
  | finishBurst
  | dropData
deriving DecidableEq

structure WrControlIn (p : AxiDmaParams) where
  desc : WrDesc p
  descValid : Bool
  beat : WrAxis p
  valid : Bool
  awready : Bool
  enable : Bool
  /-- `m_axi_wready_int`. -/
  wreadyInt : Bool
  /-- `active_count_av_reg`. -/
  activeAv : Bool

/-- The registers. -/
structure WrControl (p : AxiDmaParams) where
  state : WrState
  addr : BitVec 32
  opWordCount : BitVec 32
  offset : BitVec p.offsetWidth
  strbOffsetMask : BitVec p.strbWidth
  zeroOffset : Bool
  lastCycleOffset : BitVec p.offsetWidth
  length : BitVec 32
  inputCycleCount : BitVec p.cycleCountWidth
  outputCycleCount : BitVec p.cycleCountWidth
  inputActive : Bool
  firstCycle : Bool
  outputLastCycle : Bool
  lastTransfer : Bool
  tag : BitVec p.tagWidth
  side : AxisSide p.side
  descReady : Bool
  aw : AxiBurst
  awvalid : Bool
  tready : Bool
  saveData : BitVec (8 * p.strbWidth)
  saveKeep : BitVec p.strbWidth
  saveLast : Bool
  extraCycle : Bool

variable {p : AxiDmaParams}

namespace WrControl

/-- `rstn` low.  `save_axis_tkeep_reg` and `save_axis_tdata_reg` are not reset, but the idle
state clears the one before it is read, and what the other has kept from before a frame
only comes to bytes without a strobe. -/
def reset (p : AxiDmaParams) : WrControl p where
  state := .idle
  addr := 0
  opWordCount := 0
  offset := 0
  strbOffsetMask := BitVec.allOnes _
  zeroOffset := true
  lastCycleOffset := 0
  length := 0
  inputCycleCount := 0
  outputCycleCount := 0
  inputActive := false
  firstCycle := false
  outputLastCycle := false
  lastTransfer := false
  tag := 0
  side := p.sideReset
  descReady := false
  aw := ⟨0, 0⟩
  awvalid := false
  tready := false
  saveData := 0
  saveKeep := 0
  saveLast := false
  extraCycle := false

variable (s : WrControl p) (i : WrControlIn p)

/-! ### The shift -/

/-- The lanes that the saved word has nothing for. -/
def lead : ℕ := p.strbWidth - s.offset.toNat

def shiftTdata : BitVec (8 * p.strbWidth) :=
  if s.zeroOffset then i.beat.tdata
  else ((i.beat.tdata ++ s.saveData) >>> (8 * s.lead)).setWidth _

def shiftTkeep : BitVec p.strbWidth :=
  if s.zeroOffset then i.beat.tkeep
  else if s.extraCycle then (((0 : BitVec p.strbWidth) ++ s.saveKeep) >>> s.lead).setWidth _
  else ((i.beat.tkeep ++ s.saveKeep) >>> s.lead).setWidth _

def shiftTvalid : Bool := !s.zeroOffset && s.extraCycle || i.valid

def shiftTlast : Bool :=
  if s.zeroOffset then i.beat.tlast
  else if s.extraCycle then s.saveLast
  else i.beat.tlast && (i.beat.tkeep &&& BitVec.allOnes _ <<< s.lead) == 0

/-- `flush_save`. -/
def flushSave : Bool := s.state == .idle

/-- A beat is taken. -/
def takes : Bool := s.tready && i.valid

def shiftInputTready : Bool :=
  if s.zeroOffset then true
  else if s.extraCycle then s.flushSave
  else !(i.beat.tlast && s.takes i)

/-! ### A new descriptor and a new burst -/

def accepts : Bool := s.descReady && i.descValid

def startTr : BitVec 32 := p.trWordCount s.addr s.opWordCount

def startInput : BitVec p.cycleCountWidth := ((s.startTr - 1) >>> p.burstSize).setWidth _

def startOutput : BitVec p.cycleCountWidth := (p.cycles s.addr s.startTr).setWidth _

def startLast : Bool := s.startTr == s.opWordCount

/-- The last word will be served by what is saved. -/
def startStored : Bool :=
  !s.firstCycle && s.startLast && decide (s.lastCycleOffset ≤ s.offset ∧ 0 < s.lastCycleOffset)

def startActive : Bool := if s.startStored then decide (0 < s.startInput) else true

/-- A burst is begun. -/
def begins : Bool := !s.awvalid && i.activeAv && (i.valid || !s.firstCycle)

/-! ### A beat -/

/-- A beat goes out in the state `write`. -/
def emits : Bool :=
  s.tready && s.shiftTvalid i || !s.inputActive && !s.lastTransfer || !s.shiftInputTready i

def inputCountNext : BitVec p.cycleCountWidth :=
  if s.inputActive then s.inputCycleCount - 1 else s.inputCycleCount

def inputActiveNext : Bool := s.inputActive && decide (0 < s.inputCycleCount)

def outputCountNext : BitVec p.cycleCountWidth := s.outputCycleCount - 1

/-- The lowest lane from the offset on that is not kept, by going down over all lanes. -/
def cycleSize : ℕ :=
  (List.range p.strbWidth).reverse.foldl
    (fun c k =>
      if ~~~s.shiftTkeep i &&& s.strbOffsetMask &&& ((1 : BitVec _) <<< k) ≠ 0 then k else c)
    p.strbWidth

/-- The lanes up to the end of the descriptor. -/
def lastMask : BitVec p.strbWidth :=
  BitVec.allOnes _ >>> (p.strbWidth - s.lastCycleOffset.toNat)

/-- What ends in the word that goes out, as far as the strobes and the length say. -/
inductive Edge where
  | none
  | frame
  | desc
deriving DecidableEq

def edge : Edge :=
  if s.shiftTlast i then
    if s.outputLastCycle && s.lastTransfer && decide (0 < s.lastCycleOffset) then
      if 0 ≠ s.shiftTkeep i &&& ~~~s.lastMask then .frame else .desc
    else .frame
  else if s.outputLastCycle && s.opWordCount == 0 && decide (0 < s.lastCycleOffset) then .desc
  else .none

def strb : BitVec p.strbWidth :=
  match s.edge i with
  | .none => s.strbOffsetMask
  | .frame => s.strbOffsetMask &&& s.shiftTkeep i
  | .desc => s.strbOffsetMask &&& s.lastMask

/-- The lanes of the word that goes out, up to that end. -/
def size : BitVec 32 :=
  match s.edge i with
  | .none => BitVec.ofNat 32 p.strbWidth
  | .frame => BitVec.ofNat 32 (s.cycleSize i)
  | .desc => s.lastCycleOffset.setWidth 32

def lengthNext : BitVec 32 :=
  s.length + if s.firstCycle then s.size i - s.offset.setWidth 32 else s.size i

def sideNext : AxisSide p.side := if s.takes i then i.beat.side else s.side

/-- The descriptor is done with, as far as its entries go. -/
def ends : Bool := s.shiftTlast i || s.outputLastCycle && s.opWordCount == 0

/-- What is put into the output FIFO. -/
def pushed : Option (WrBeat p) :=
  match s.state with
  | .write => if s.emits i then some ⟨s.shiftTdata i, s.strb i, s.outputLastCycle⟩ else none
  | .finishBurst => if i.wreadyInt then some ⟨0, 0, s.outputLastCycle⟩ else none
  | _ => none

/-- The entry that goes to the part that waits for the responses. -/
def entry : Option (WrEntry p) :=
  if s.state == .write && s.emits i && (s.shiftTlast i || s.outputLastCycle) then
    some ⟨s.lengthNext i, s.tag, s.sideNext i, s.ends i⟩
  else none

/-- `inc_active`. -/
def incActive : Bool := s.state == .start && s.begins i

/-! ### A clock edge -/

/-- `transfer_in_save`. -/
def stores : Bool :=
  match s.state with
  | .write => s.emits i && s.takes i
  | .dropData => s.shiftTvalid i && s.takes i
  | _ => false

/-- What happens in every state. -/
def base : WrControl p :=
  { s with
    descReady := false
    awvalid := s.awvalid && !i.awready
    tready := false
    saveData := if !s.flushSave && s.stores i then i.beat.tdata else s.saveData
    saveKeep := if s.flushSave then 0 else if s.stores i then i.beat.tkeep else s.saveKeep
    saveLast := if s.flushSave then false else if s.stores i then i.beat.tlast else s.saveLast
    extraCycle :=
      if s.flushSave then false
      else if s.stores i then i.beat.tlast && i.beat.tkeep >>> s.lead != 0
      else s.extraCycle }

def mayAccept : Bool := i.enable && i.activeAv

def step : WrControl p :=
  match s.state with
  | .idle =>
    let offset : BitVec p.offsetWidth := (i.desc.addr &&& p.offsetMask).setWidth _
    { s.base i with
      state := if s.accepts i then .start else .idle
      addr := i.desc.addr
      opWordCount := i.desc.len
      offset
      strbOffsetMask := BitVec.allOnes _ <<< (i.desc.addr &&& p.offsetMask).toNat
      zeroOffset := i.desc.addr &&& p.offsetMask == 0
      lastCycleOffset := offset + (i.desc.len &&& p.offsetMask).setWidth _
      length := 0
      firstCycle := true
      tag := i.desc.tag
      descReady := if s.accepts i then false else mayAccept i }
  | .start =>
    let begins := s.begins i
    { s.base i with
      state := if begins then .write else .start
      addr := if begins then s.addr + s.startTr else s.addr
      opWordCount := if begins then s.opWordCount - s.startTr else s.opWordCount
      inputCycleCount := if s.startStored then s.startInput - 1 else s.startInput
      outputCycleCount := s.startOutput
      inputActive := s.startActive
      outputLastCycle := s.startOutput == 0
      lastTransfer := s.startLast
      aw := if !s.awvalid && i.activeAv then ⟨s.addr, s.startOutput.setWidth 8⟩ else s.aw
      awvalid := if !s.awvalid && i.activeAv then begins else s.awvalid && !i.awready
      tready := begins && i.wreadyInt && s.startActive }
  | .write =>
    if s.emits i then
      { s.base i with
        state :=
          if s.shiftTlast i then if s.outputLastCycle then .idle else .finishBurst
          else if s.outputLastCycle then if 0 < s.opWordCount then .start else .dropData
          else .write
        strbOffsetMask := BitVec.allOnes _
        length := s.lengthNext i
        inputCycleCount := s.inputCountNext
        outputCycleCount := s.outputCountNext
        inputActive := if i.beat.tlast then false else s.inputActiveNext
        firstCycle := false
        outputLastCycle := s.outputCountNext == 0
        side := s.sideNext i
        descReady := s.shiftTlast i && s.outputLastCycle && mayAccept i
        tready :=
          if s.shiftTlast i then false
          else if s.outputLastCycle then
            if 0 < s.opWordCount then false else s.shiftInputTready i
          else
            i.wreadyInt && (s.lastTransfer || if i.beat.tlast then false else s.inputActiveNext)
              && s.shiftInputTready i }
    else
      { s.base i with
        tready := i.wreadyInt && (s.lastTransfer || s.inputActive) && s.shiftInputTready i }
  | .finishBurst =>
    if i.wreadyInt then
      { s.base i with
        state := if s.outputLastCycle then .idle else .finishBurst
        inputCycleCount := s.inputCountNext
        outputCycleCount := s.outputCountNext
        inputActive := s.inputActiveNext
        outputLastCycle := s.outputCountNext == 0
        descReady := s.outputLastCycle && mayAccept i }
    else s.base i
  | .dropData =>
    let done := s.shiftTvalid i && s.shiftTlast i
    { s.base i with
      state := if done then .idle else .dropData
      descReady := done && mayAccept i
      tready := if done then false else s.shiftInputTready i }

/-- The descriptor that is taken in. -/
def descTaken : Option (WrDesc p) := if s.accepts i then some i.desc else none

/-- The beat that is taken. -/
def beatTaken : Option (WrAxis p) := if s.takes i then some i.beat else none

/-- The request that is accepted. -/
def awTaken : Option AxiBurst := if s.awvalid && i.awready then some s.aw else none

end WrControl

end AxisSystolic
