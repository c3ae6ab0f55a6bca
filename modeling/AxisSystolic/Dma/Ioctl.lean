import AxisSystolic.Dma.Driver

/-!
# The commands of the driver (`sa_ioctl`)

`Call` is the state of one `ioctl` between two register accesses, as `Run` is
for `SA_IOC_RUN`; a call that makes no access returns at once.  User memory does
not fault: a call that it stops makes no further access.
-/

namespace AxisSystolic

/-! ### Arguments and results -/

/-- `SA_MAX_REG_INDEX`. -/
def saMaxRegIndex : ℕ := Channel.s2mm.aBytes

/-- `struct sa_dma_transfer`. -/
structure DmaTransfer where
  channel : BitVec 32
  offset : BitVec 32
  numBytes : BitVec 32
  userPtr : BitVec 64

/-- `struct sa_dma_info`. -/
structure DmaInfo where
  dmaAddr : Channel → BitVec 32
  bufSize : BitVec 32

inductive Ioctl where
  | readReg (reg : BitVec 32)
  | writeReg (reg value : BitVec 32)
  | start
  | wait
  | getDmaInfo
  | copyToDma (xfer : DmaTransfer)
  | copyFromDma (xfer : DmaTransfer)
  | run (cfg : RunConfig)

/-- `SA_IOC_WRITE_REG`, which writes a register of the caller's choice. -/
def Ioctl.isWriteReg : Ioctl → Bool
  | writeReg _ _ => true
  | _ => false

/-- What a call copies back to its caller. -/
inductive Reply where
  | nothing
  | value (v : BitVec 32)
  | dmaInfo (info : DmaInfo)

/-! ### The buffers -/

/-- `sa_dma_get_buffer`. -/
def saDmaGetBuffer (channel : BitVec 32) : Option Channel :=
  if channel = 0 then some .mm2s0
  else if channel = 1 then some .mm2s1
  else if channel = 2 then some .mm2s2
  else if channel = 3 then some .s2mm
  else none

/-- `sa_dma_check_range`, for buffers that have been allocated. -/
def saDmaCheckRange (buf : Option DmaBuffer) (offset numBytes : BitVec 32) : Ret :=
  match buf with
  | none => .error .einval
  | some buf =>
    if offset.toNat > buf.size.toNat then .error .einval
    else if numBytes.toNat > buf.size.toNat - offset.toNat then .error .einval
    else .ok ()

/-- What `sa_dma_copy_to_buffer` and `sa_dma_copy_from_buffer` return. -/
def saDmaCopy (sa : SaDev) (xfer : DmaTransfer) : Ret :=
  saDmaCheckRange ((saDmaGetBuffer xfer.channel).map sa.buf) xfer.offset xfer.numBytes

def saDmaInfo (sa : SaDev) : DmaInfo where
  dmaAddr c := (sa.buf c).dma.setWidth 32
  bufSize := (sa.buf .mm2s0).size.setWidth 32

/-! ### Calls -/

/-- A call between two register accesses. -/
inductive Call where
  | idle
  | readReg (reg : BitVec 32)
  | writeReg (reg value : BitVec 32)
  | start
  /-- `sa_hw_wait_done` in `SA_IOC_WAIT`. -/
  | wait (r : Run)
  /-- `sa_hw_done_status` after it: the conjunction of what has been read, the
  channel to read and those after it. -/
  | status (acc : BitVec 32) (c : Channel) (todo : List Channel)
  | run (r : Run)

namespace Call

def access : Call → Option Access
  | idle => none
  | readReg reg => some (.read reg.toNat)
  | writeReg reg value => some (.write reg.toNat value)
  | start => some (.write aStart 1)
  | wait r => r.access
  | status _ c _ => some (.read c.aDone)
  | run r => r.access

/-- A call up to its first register access. -/
def enter (sa : SaDev) : Ioctl → Call × Option (Except Errno Reply)
  | .readReg reg =>
    if reg.toNat > saMaxRegIndex then (idle, some (.error .einval)) else (readReg reg, none)
  | .writeReg reg value =>
    if reg.toNat > saMaxRegIndex then (idle, some (.error .einval)) else (writeReg reg value, none)
  | .start => (start, none)
  | .wait => (wait (Run.waitDone 1000000).1, none)
  | .getDmaInfo => (idle, some (.ok (.dmaInfo (saDmaInfo sa))))
  | .copyToDma xfer => (idle, some ((saDmaCopy sa xfer).map fun _ => .nothing))
  | .copyFromDma xfer => (idle, some ((saDmaCopy sa xfer).map fun _ => .nothing))
  | .run cfg =>
    match Run.enter sa cfg with
    | (r, none) => (run r, none)
    | (_, some ret) => (idle, some (ret.map fun _ => .nothing))

/-- After the access, which has read `rdData` if it was a read. -/
def next (rdData : BitVec 32) : Call → Call × Option (Except Errno Reply)
  | idle => (idle, none)
  | readReg _ => (idle, some (.ok (.value rdData)))
  | writeReg _ _ => (idle, some (.ok .nothing))
  | start => (idle, some (.ok .nothing))
  | wait r =>
    match r.next rdData with
    | (r', none) => (wait r', none)
    | (_, some (.error e)) => (idle, some (.error e))
    | (_, some (.ok ())) => (status (BitVec.allOnes 32) .mm2s0 [.mm2s1, .mm2s2, .s2mm], none)
  | status acc _ (c' :: todo) => (status (acc &&& rdData) c' todo, none)
  | status acc _ [] => (idle, some (.ok (.value (acc &&& rdData))))
  | run r =>
    match r.next rdData with
    | (r', none) => (run r', none)
    | (_, some ret) => (idle, some (ret.map fun _ => .nothing))

end Call

end AxisSystolic
