import AxisSystolic.Sync.Machine
import Mathlib.Data.BitVec
import Mathlib.Data.Nat.Log

/-!
# The configuration bridge (`dev_to_maxil.sv`)

The bridge latches one request of the device port, performs it as AXI-Lite
transactions, and answers.  Reads are throttled: after a granted read the
counter `rd_cooldown` starts at `POLL_GAP - 1`, and no read is granted before it
has run down.  It stands still in a cycle that grants a write.
-/

namespace AxisSystolic

open Sync

/-- The parameters of `dev_to_maxil`. -/
structure MaxilParams where
  addrWidth : ℕ
  axiDataWidth : ℕ
  pollGap : ℕ

/-- The width of `rd_cooldown`. -/
def MaxilParams.cw (p : MaxilParams) : ℕ := if p.pollGap ≤ 1 then 1 else Nat.clog 2 p.pollGap

/-- The states of the bridge. -/
inductive MaxilState where
  | idle | wAw | wW | wB | rAr | rWait | rR | resp
deriving DecidableEq

/-- The signals of the AXI-Lite slave. -/
structure AxilSlave (p : MaxilParams) where
  awready : Bool
  wready : Bool
  bresp : BitVec 2
  bvalid : Bool
  arready : Bool
  rdata : BitVec p.axiDataWidth
  rresp : BitVec 2
  rvalid : Bool

structure MaxilIn (p : MaxilParams) extends AxilSlave p where
  dataReq : Bool
  dataAddr : BitVec 32
  dataWe : Bool
  dataBe : BitVec 4
  dataWdata : BitVec 32

/-- The registers of `dev_to_maxil`. -/
structure DevToMaxil (p : MaxilParams) where
  state : MaxilState
  reqValid : Bool
  reqAddr : BitVec 32
  reqWe : Bool
  reqBe : BitVec 4
  reqWdata : BitVec 32
  respErr : Bool
  respRdata : BitVec 32
  rdCooldown : BitVec p.cw

namespace DevToMaxil

variable {p : MaxilParams}

/-- `rst_n` low. -/
def reset (p : MaxilParams) : DevToMaxil p where
  state := .idle
  reqValid := false
  reqAddr := 0
  reqWe := false
  reqBe := 0
  reqWdata := 0
  respErr := false
  respRdata := 0
  rdCooldown := 0

variable (s : DevToMaxil p) (i : MaxilIn p)

/-! ### Ports -/

/-- The address with its two low bits cleared. -/
def reqAddrAligned : BitVec p.addrWidth := ((s.reqAddr >>> 2) <<< 2).setWidth p.addrWidth

def awvalid : Bool := s.state == .wAw
def wvalid : Bool := s.state == .wW
def bready : Bool := s.state == .wB
def arvalid : Bool := s.state == .rAr
def rready : Bool := s.state == .rR

def wdata : BitVec p.axiDataWidth := s.reqWdata.setWidth p.axiDataWidth
def wstrb : BitVec (p.axiDataWidth / 8) := s.reqBe.setWidth (p.axiDataWidth / 8)

def awHs : Bool := s.awvalid && i.awready
def wHs : Bool := s.wvalid && i.wready
def bHs : Bool := i.bvalid && s.bready
def arHs : Bool := s.arvalid && i.arready
def rHs : Bool := i.rvalid && s.rready

def rdOk : Bool :=
  if p.pollGap = 0 then true else if p.pollGap = 1 then true else s.rdCooldown == 0

def wantRead (i : MaxilIn p) : Bool := i.dataReq && !i.dataWe
def wantWrite (i : MaxilIn p) : Bool := i.dataReq && i.dataWe

def canGrant : Bool := s.state == .idle && !s.reqValid && (wantWrite i || (wantRead i && s.rdOk))

def dataRvalid : Bool := s.state == .resp
def dataErr : Bool := if s.state = .resp then s.respErr else false
def dataRdata : BitVec 32 := if s.state = .resp then s.respRdata else 0

/-! ### A clock edge -/

def nstate : MaxilState :=
  match s.state with
  | .idle => if s.reqValid then if s.reqWe then .wAw else .rAr else .idle
  | .wAw => if s.awHs i then .wW else .wAw
  | .wW => if s.wHs i then .wB else .wW
  | .wB => if s.bHs i then .resp else .wB
  | .rAr => if s.arHs i then .rWait else .rAr
  | .rWait => .rR
  | .rR => if s.rHs i then .resp else .rR
  | .resp => .idle

def step : DevToMaxil p where
  state := s.nstate i
  reqValid :=
    if s.state = .resp ∧ s.nstate i = .idle then false
    else if s.canGrant i then true
    else s.reqValid
  reqAddr := if s.canGrant i then i.dataAddr else s.reqAddr
  reqWe := if s.canGrant i then i.dataWe else s.reqWe
  reqBe := if s.canGrant i then i.dataBe else s.reqBe
  reqWdata := if s.canGrant i then i.dataWdata else s.reqWdata
  respErr := if s.rHs i then i.rresp != 0 else if s.bHs i then i.bresp != 0 else s.respErr
  respRdata := if s.rHs i then i.rdata.setWidth 32 else s.respRdata
  rdCooldown :=
    if s.canGrant i then
      if !i.dataWe && decide (p.pollGap > 1) then BitVec.ofNat p.cw p.pollGap - 1
      else s.rdCooldown
    else if decide (p.pollGap > 1) && s.rdCooldown != 0 then s.rdCooldown - 1
    else s.rdCooldown

/-! ### The bridge as seen from the device port -/

section Step

variable {s i}

theorem canGrant_of_idle (hs : s.state = .idle) (hr : s.reqValid = false) :
    s.canGrant i = (wantWrite i || (wantRead i && s.rdOk)) := by
  simp [canGrant, hs, hr]

/-- What is left of a request, `resp` last. -/
def stage : MaxilState → ℕ
  | .idle => 4
  | .wAw => 3
  | .rAr => 3
  | .wW => 2
  | .rWait => 2
  | .wB => 1
  | .rR => 1
  | .resp => 0

/-- The slave lets the bridge go on. -/
def slaveGo (i : AxilSlave p) : MaxilState → Bool
  | .wAw => i.awready
  | .wW => i.wready
  | .wB => i.bvalid
  | .rAr => i.arready
  | .rR => i.rvalid
  | _ => true

/-- A latched request stays latched until the response, and moves on when the
slave lets it. -/
theorem step_of_reqValid (hr : s.reqValid = true) (hs : s.state ≠ .resp) :
    (s.step i).reqValid = true ∧
      (if slaveGo i.toAxilSlave s.state = true then stage (s.step i).state + 1 = stage s.state
        else (s.step i).state = s.state) := by
  refine ⟨?_, ?_⟩
  · simp [step, hs, hr]
  · show if slaveGo i.toAxilSlave s.state = true then stage (s.nstate i) + 1 = stage s.state
      else s.nstate i = s.state
    rcases hst : s.state with _ | _ | _ | _ | _ | _ | _ | _
    case resp => exact absurd hst hs
    case idle => cases hw : s.reqWe <;> simp [slaveGo, nstate, hst, hr, hw, stage]
    case rWait => simp [slaveGo, nstate, hst, stage]
    case wAw => cases h : i.awready <;> simp [slaveGo, nstate, hst, awHs, awvalid, h, stage]
    case wW => cases h : i.wready <;> simp [slaveGo, nstate, hst, wHs, wvalid, h, stage]
    case wB => cases h : i.bvalid <;> simp [slaveGo, nstate, hst, bHs, bready, h, stage]
    case rAr => cases h : i.arready <;> simp [slaveGo, nstate, hst, arHs, arvalid, h, stage]
    case rR => cases h : i.rvalid <;> simp [slaveGo, nstate, hst, rHs, rready, h, stage]

theorem step_of_resp (hs : s.state = .resp) :
    (s.step i).state = .idle ∧ (s.step i).reqValid = false := by
  simp [step, nstate, hs]

theorem step_of_idle (hs : s.state = .idle) (hr : s.reqValid = false) :
    (s.step i).state = .idle ∧ (s.step i).reqValid = s.canGrant i := by
  have hn : s.nstate i = .idle := by simp [nstate, hs, hr]
  refine ⟨?_, ?_⟩
  · exact hn
  · show (if s.state = .resp ∧ s.nstate i = .idle then false
      else if s.canGrant i then true else s.reqValid) = s.canGrant i
    rw [hs, hr, if_neg (by simp)]
    cases s.canGrant i <;> rfl

/-! ### The read throttle -/

theorem cooldown_start (h : 1 < p.pollGap) :
    (BitVec.ofNat p.cw p.pollGap - 1 : BitVec p.cw).toNat = p.pollGap - 1 := by
  have hcw : p.cw = Nat.clog 2 p.pollGap := if_neg (by omega)
  have hle : p.pollGap ≤ 2 ^ p.cw := hcw ▸ Nat.le_pow_clog (by omega) _
  have hone : 1 % 2 ^ p.cw = 1 := Nat.mod_eq_of_lt (by omega)
  rw [BitVec.toNat_sub, BitVec.toNat_ofNat, BitVec.ofNat_eq_ofNat, BitVec.toNat_ofNat, hone]
  rcases Nat.eq_or_lt_of_le hle with heq | hlt
  · rw [← heq, Nat.mod_self, Nat.add_zero, Nat.mod_eq_of_lt (by omega)]
  · rw [Nat.mod_eq_of_lt hlt, show 2 ^ p.cw - 1 + p.pollGap = p.pollGap - 1 + 2 ^ p.cw by omega,
      Nat.add_mod_right, Nat.mod_eq_of_lt (by omega)]

theorem rdOk_iff (hle : s.rdCooldown.toNat ≤ p.pollGap - 1) :
    s.rdOk = true ↔ s.rdCooldown.toNat = 0 := by
  unfold rdOk
  by_cases h0 : p.pollGap = 0
  · rw [if_pos h0]
    exact ⟨fun _ => by omega, fun _ => rfl⟩
  by_cases h1 : p.pollGap = 1
  · rw [if_neg h0, if_pos h1]
    exact ⟨fun _ => by omega, fun _ => rfl⟩
  · rw [if_neg h0, if_neg h1, beq_iff_eq, ← BitVec.toNat_inj]
    rfl

/-- A granted read starts the counter, a granted write leaves it, and every other
cycle counts it down. -/
theorem step_rdCooldown (hle : s.rdCooldown.toNat ≤ p.pollGap - 1) :
    (s.step i).rdCooldown.toNat = if s.canGrant i = true then
      if i.dataWe = true then s.rdCooldown.toNat else p.pollGap - 1
    else s.rdCooldown.toNat - 1 := by
  show (if s.canGrant i = true then
      if (!i.dataWe && decide (p.pollGap > 1)) = true then BitVec.ofNat p.cw p.pollGap - 1
      else s.rdCooldown
    else if (decide (p.pollGap > 1) && s.rdCooldown != 0) = true then s.rdCooldown - 1
    else s.rdCooldown).toNat = _
  by_cases hg : s.canGrant i = true
  · rw [if_pos hg, if_pos hg]
    by_cases hw : i.dataWe = true
    · rw [if_pos hw, if_neg (by simp [hw])]
    · by_cases hp : 1 < p.pollGap
      · rw [if_neg hw, if_pos (by simp [hw, hp]), cooldown_start hp]
      · rw [if_neg hw, if_neg (by simp [hp])]
        omega
  · rw [if_neg hg, if_neg hg]
    by_cases hz : s.rdCooldown = 0
    · rw [if_neg (by simp [hz]), hz]
      rfl
    · have hpos : s.rdCooldown.toNat ≠ 0 := fun h0 => hz (BitVec.eq_of_toNat_eq h0)
      have hlt : s.rdCooldown.toNat < 2 ^ p.cw := s.rdCooldown.isLt
      have hone : (1 : BitVec p.cw).toNat = 1 :=
        Nat.mod_eq_of_lt (show 1 < 2 ^ p.cw by omega)
      have hcount : (decide (p.pollGap > 1) && s.rdCooldown != 0) = true := by
        rw [Bool.and_eq_true, decide_eq_true_iff, bne_iff_ne]
        exact ⟨by omega, hz⟩
      rw [if_pos hcount, BitVec.toNat_sub_of_le (BitVec.le_def.mpr (by omega)), hone]

end Step

end DevToMaxil

/-- The clocked machine of `dev_to_maxil`. -/
def devToMaxil (p : MaxilParams) : Machine (DevToMaxil p) (MaxilIn p) where
  reset := DevToMaxil.reset p
  step := DevToMaxil.step

end AxisSystolic
