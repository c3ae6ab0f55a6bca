import AxisSystolic.Dma.Controller

/-!
# The Linux driver (`systolic_array_main.c`, `systolic_array_hw.c`)

`SA_IOC_RUN` checks the sizes, writes eight registers and `START`, and polls the
four `DONE` registers.  `Run` is the state of one such call between two register
accesses: `Run.access` is the access it makes next and `Run.next` what follows
when that access has been made.
-/

namespace AxisSystolic

/-! ### The device -/

/-- `struct sa_dma_buffer`. -/
structure DmaBuffer where
  dma : BitVec 64
  size : BitVec 64

/-- The buffers of `struct sa_dev`: `mm2s[0]`, `mm2s[1]`, `mm2s[2]` and `s2mm`. -/
structure SaDev where
  buf : Channel → DmaBuffer

/-- `struct sa_run_config`. -/
structure RunConfig where
  bytes : Channel → BitVec 32
  timeoutUs : BitVec 32

inductive Errno where
  | einval | etimedout
deriving DecidableEq

/-- What an `ioctl` returns: `0` or an error. -/
abbrev Ret := Except Errno Unit

/-- No length is larger than its buffer. -/
def saCheckRunSize (sa : SaDev) (cfg : RunConfig) : Ret :=
  if (cfg.bytes .mm2s0).toNat > (sa.buf .mm2s0).size.toNat then .error .einval
  else if (cfg.bytes .mm2s1).toNat > (sa.buf .mm2s1).size.toNat then .error .einval
  else if (cfg.bytes .mm2s2).toNat > (sa.buf .mm2s2).size.toNat then .error .einval
  else if (cfg.bytes .s2mm).toNat > (sa.buf .s2mm).size.toNat then .error .einval
  else .ok ()

/-! ### Register accesses -/

inductive Access where
  | write (reg : ℕ) (value : BitVec 32)
  | read (reg : ℕ)

/-- The writes of `sa_program_dma_registers`. -/
def saProgramDmaRegisters (sa : SaDev) (cfg : RunConfig) : List (ℕ × BitVec 32) :=
  [(Channel.mm2s0.aAddr, (sa.buf .mm2s0).dma.setWidth 32),
   (Channel.mm2s0.aBytes, cfg.bytes .mm2s0),
   (Channel.mm2s1.aAddr, (sa.buf .mm2s1).dma.setWidth 32),
   (Channel.mm2s1.aBytes, cfg.bytes .mm2s1),
   (Channel.mm2s2.aAddr, (sa.buf .mm2s2).dma.setWidth 32),
   (Channel.mm2s2.aBytes, cfg.bytes .mm2s2),
   (Channel.s2mm.aAddr, (sa.buf .s2mm).dma.setWidth 32),
   (Channel.s2mm.aBytes, cfg.bytes .s2mm)]

/-- A call between two register accesses. -/
inductive Run where
  | idle
  /-- `sa_program_dma_registers`: the write to come and those after it. -/
  | program (cfg : RunConfig) (reg : ℕ) (value : BitVec 32) (todo : List (ℕ × BitVec 32))
  /-- `sa_hw_start`. -/
  | start (cfg : RunConfig)
  /-- `sa_hw_done_status` in `sa_hw_wait_done`: the polls left after this one, the
  conjunction of what has been read, the channel to read and those after it.  C leaves
  the order of the four reads open; here they are made from left to right. -/
  | poll (left : ℕ) (status : BitVec 32) (c : Channel) (todo : List Channel)

namespace Run

def access : Run → Option Access
  | idle => none
  | program _ reg value _ => some (.write reg value)
  | start _ => some (.write aStart 1)
  | poll _ _ c _ => some (.read c.aDone)

/-- The writes of `sa_program_dma_registers` from some write on. -/
def programFrom (cfg : RunConfig) : List (ℕ × BitVec 32) → Run
  | [] => start cfg
  | w :: todo => program cfg w.1 w.2 todo

/-- The head of the loop of `sa_hw_wait_done` with `timeout_us` at `n`. -/
def waitDone : ℕ → Run × Option Ret
  | 0 => (idle, some (.error .etimedout))
  | n + 1 => (poll n (BitVec.allOnes 32) .mm2s0 [.mm2s1, .mm2s2, .s2mm], none)

/-- `SA_IOC_RUN` up to its first register access. -/
def enter (sa : SaDev) (cfg : RunConfig) : Run × Option Ret :=
  match saCheckRunSize sa cfg with
  | .error e => (idle, some (.error e))
  | .ok () => (programFrom cfg (saProgramDmaRegisters sa cfg), none)

/-- After the access, which has read `rdData` if it was a read. -/
def next (rdData : BitVec 32) : Run → Run × Option Ret
  | idle => (idle, none)
  | program cfg _ _ todo => (programFrom cfg todo, none)
  | start cfg => waitDone (if cfg.timeoutUs = 0 then 1000000 else cfg.timeoutUs.toNat)
  | poll left status _ (c' :: todo) => (poll left (status &&& rdData) c' todo, none)
  | poll left status _ [] =>
    if status &&& rdData ≠ 0 then (idle, some (.ok ())) else waitDone left

/-- The call is waiting for its job. -/
def polling : Run → Bool
  | poll _ _ _ _ => true
  | _ => false

/-- A call only returns `0` after a poll. -/
theorem next_eq_ok {r : Run} {rdData : BitVec 32} (h : (r.next rdData).2 = some (.ok ())) :
    ∃ left status c, r = poll left status c [] ∧ status &&& rdData ≠ 0 := by
  have hwait : ∀ n, (waitDone n).2 ≠ some (.ok ()) := by
    intro n
    cases n <;> simp [waitDone]
  cases r with
  | idle => cases h
  | program _ _ _ todo => cases h
  | start _ => exact absurd h (hwait _)
  | poll left status c todo =>
    cases todo with
    | cons _ _ => cases h
    | nil =>
      refine ⟨left, status, c, rfl, ?_⟩
      intro h0
      rw [next, if_neg (not_not.mpr h0)] at h
      exact hwait left h

theorem enter_ne_ok (sa : SaDev) (cfg : RunConfig) : (enter sa cfg).2 ≠ some (.ok ()) := by
  rw [enter]
  cases saCheckRunSize sa cfg <;> simp

end Run

end AxisSystolic
