import AxisSystolic.Sa.Mac
import AxisSystolic.Sync.Machine

/-!
# The systolic array (`tri_buffer.sv`, `pe.sv`, `axis_sa.sv`)

A packed array of the source is a function of its index, and is read below its
bound only.  The ports are indexed by `Fin`; `lane` reads a port at an index.

`axisSa p` is the clocked machine of `axis_sa`.  Its wires are functions of the
registers `s : AxisSa p` and, for the few that need it, of the inputs
`i : SaIn p` of the cycle: `s_ready` is `enMac s i`, and it depends on
`m_ready` through `reg_stall`.
-/

namespace AxisSystolic

open Sync

/-- The parameters of `axis_sa`.  The sizes and the latencies are positive. -/
structure SaParams where
  R : ℕ
  C : ℕ
  WX : ℕ
  WK : ℕ
  WY : ℕ
  LM : ℕ
  LA : ℕ
  R_pos : 1 ≤ R
  C_pos : 1 ≤ C
  LM_pos : 1 ≤ LM
  LA_pos : 1 ≤ LA

/-- The number of diagonals, `` `DIAG(R,C)-1 ``. -/
def SaParams.D (p : SaParams) : ℕ := p.R + p.C - 1

/-- A port read at an index. -/
def lane {n w : ℕ} (v : Fin n → BitVec w) (i : ℕ) : BitVec w :=
  if h : i < n then v ⟨i, h⟩ else 0

@[simp] theorem lane_val {n w : ℕ} (v : Fin n → BitVec w) (i : Fin n) : lane v i = v i := by
  simp [lane]

@[simp] theorem lane_zero {n w : ℕ} (i : ℕ) : lane (fun _ : Fin n => (0 : BitVec w)) i = 0 := by
  simp [lane]

/-- What the source stream offers in a cycle. -/
structure Beat (p : SaParams) where
  sValid : Bool
  sLast : Bool
  sx : Fin p.R → BitVec p.WX
  sk : Fin p.C → BitVec p.WK
deriving DecidableEq

/-- The inputs of a cycle. -/
structure SaIn (p : SaParams) extends Beat p where
  mReady : Bool

/-! ### `tri_buffer` -/

/-- `buffer[r][c]`: row `0` is the input, the rows below are registers.  The
source has a register for `r ≤ c` only, and reads no other. -/
def triBuffer {W : ℕ} (x : ℕ → BitVec W) (reg : ℕ → ℕ → BitVec W) (r c : ℕ) : BitVec W :=
  if r = 0 then x c else reg r c

def triStep {W : ℕ} (cen : Bool) (x : ℕ → BitVec W) (reg : ℕ → ℕ → BitVec W) :
    ℕ → ℕ → BitVec W :=
  fun r c => if cen then triBuffer x reg (r - 1) c else reg r c

/-- The output, read on the diagonal. -/
def triOut {W : ℕ} (x : ℕ → BitVec W) (reg : ℕ → ℕ → BitVec W) (c : ℕ) : BitVec W :=
  triBuffer x reg c c

/-! ### `pe` -/

/-- The registers of `pe`. -/
structure Pe (WX WK WY : ℕ) where
  ko : BitVec WK
  xo : BitVec WX
  mac : Mac WX WK WY
  ro : BitVec WY

namespace Pe

variable {WX WK WY : ℕ}

def reset : Pe WX WK WY where
  ko := 0
  xo := 0
  mac := Mac.reset
  ro := 0

def step (LM LA : ℕ) (enMac enShift mFirst mValid rCopy : Bool) (ki : BitVec WK) (xi : BitVec WX)
    (ri : BitVec WY) (s : Pe WX WK WY) : Pe WX WK WY where
  ko := if enMac then ki else s.ko
  xo := if enMac then xi else s.xo
  mac := s.mac.step LM enMac mValid mFirst xi ki
  ro := if rCopy then s.mac.y LA else if enShift then ri else s.ro

end Pe

/-! ### `axis_sa` -/

/-- The registers of `axis_sa`.  `valid` and `vlast` are those of the delay
lines `VALID` and `VLAST`; `rLastReg d` drives `r_last[d]` for `1 ≤ d`. -/
structure AxisSa (p : SaParams) where
  triX : ℕ → ℕ → BitVec p.WX
  triK : ℕ → ℕ → BitVec p.WK
  valid : ℕ → Bool
  vlast : ℕ → Bool
  mFirst : ℕ → Bool
  rLastReg : ℕ → Bool
  aValid : ℕ → Bool
  rValid : ℕ → Bool
  pe : ℕ → ℕ → Pe p.WX p.WK p.WY

namespace AxisSa

variable {p : SaParams}

/-- `rstn` low. -/
def reset (p : SaParams) : AxisSa p where
  triX := fun _ _ => 0
  triK := fun _ _ => 0
  valid := fun _ => false
  vlast := fun _ => false
  mFirst := fun _ => true
  rLastReg := fun _ => false
  aValid := fun _ => false
  rValid := fun _ => false
  pe := fun _ _ => Pe.reset

variable (s : AxisSa p) (i : SaIn p)

/-! #### Wires of the registers -/

/-- `r_last[0]` is `r_valid[0]`, the others are registers. -/
def rLast (d : ℕ) : Bool := if d = 0 then s.rValid 0 else s.rLastReg d

def mValid : Bool := s.rValid (p.D - 1)

def mLast : Bool := s.rLast (p.C - 1)

def mData (r : Fin p.R) : BitVec p.WY := (s.pe r (p.C - 1)).ro

def conflict (d : ℕ) : Bool := s.aValid d && s.rValid d

def canCopy (d : ℕ) : Bool := s.aValid d && !s.rValid d

/-! #### Wires of the cycle -/

def enShift : Bool := s.mValid && i.mReady

def mStall (d : ℕ) : Bool := decide (p.C - 1 ≤ d) && s.mValid && !i.mReady

def regStall (d : ℕ) : Bool := s.canCopy d && s.mStall i d

def rCopy (d : ℕ) : Bool := s.canCopy d && !s.mStall i d

def rClear (d : ℕ) : Bool := s.enShift i && s.rLast d

def enMac : Bool :=
  !((List.range p.D).any s.conflict) && !((List.range p.D).any (s.regStall i))

def sReady : Bool := s.enMac i

/-- `valid[n]`, the tap `n` of the delay line `VALID`. -/
def validTap (n : ℕ) : Bool := tap i.sValid s.valid n

/-- `vlast[n]`, the tap `n` of the delay line `VLAST`. -/
def vlastTap (n : ℕ) : Bool := tap (i.sValid && i.sLast) s.vlast n

def skReversed (c : ℕ) : BitVec p.WK := lane i.sk (p.C - 1 - c)

def xiDelayed (r : ℕ) : BitVec p.WX := triOut (lane i.sx) s.triX r

def kiDelayed (c : ℕ) : BitVec p.WK := triOut (skReversed i) s.triK c

/-- The operands and the shifted result that enter the element `(r, c)`. -/
def xi (r c : ℕ) : BitVec p.WX := if c = 0 then s.xiDelayed i r else (s.pe r (c - 1)).xo

def ki (r c : ℕ) : BitVec p.WK := if r = 0 then s.kiDelayed i c else (s.pe (r - 1) c).ko

def ri (r c : ℕ) : BitVec p.WY := if c = 0 then 0 else (s.pe r (c - 1)).ro

/-- A clock edge. -/
def step : AxisSa p where
  triX := triStep (s.enMac i) (lane i.sx) s.triX
  triK := triStep (s.enMac i) (skReversed i) s.triK
  valid := nDelay (s.enMac i) i.sValid s.valid
  vlast := nDelay (s.enMac i) (i.sValid && i.sLast) s.vlast
  -- not gated by `en_mac`
  mFirst := fun d => if s.validTap i (p.LM + d) then s.vlastTap i (p.LM + d) else s.mFirst d
  rLastReg := fun d =>
    if s.enShift i then
      if p.C - 1 ≤ d ∧ s.mLast = true then false else s.rLast (d - 1)
    else s.rLastReg d
  aValid := fun d => if s.enMac i then s.vlastTap i (p.LM + p.LA + d - 1) else s.aValid d
  rValid := fun d =>
    if p.C - 1 ≤ d ∧ s.enShift i = true ∧ s.mLast = true then false
    else if s.rCopy i d then true
    else if s.rClear i d then false
    else s.rValid d
  pe := fun r c =>
    (s.pe r c).step p.LM p.LA (s.enMac i) (s.enShift i) (s.mFirst (r + c))
      (s.validTap i (p.LM + (r + c))) (s.rCopy i (r + c)) (s.ki i r c) (s.xi i r c) (s.ri r c)

end AxisSa

/-- The clocked machine of `axis_sa`. -/
def axisSa (p : SaParams) : Machine (AxisSa p) (SaIn p) where
  reset := AxisSa.reset p
  step := AxisSa.step

/-! ### What passes the ports -/

namespace AxisSa

variable {p : SaParams}

/-- The beat taken on the `s` side in a cycle. -/
def sBeat (s : AxisSa p) (i : SaIn p) : Option (Beat p) :=
  if s.sReady i && i.sValid then some i.toBeat else none

/-- A beat handed over on the `m` side. -/
structure OutBeat (p : SaParams) where
  mData : Fin p.R → BitVec p.WY
  mLast : Bool

/-- The beat handed over on the `m` side in a cycle. -/
def mBeat (s : AxisSa p) (i : SaIn p) : Option (OutBeat p) :=
  if s.mValid && i.mReady then some ⟨s.mData, s.mLast⟩ else none

/-- A source that offers the inputs of a list, one in each cycle, and then
nothing. -/
def script (l : List (SaIn p)) : ℕ → SaIn p := fun t =>
  l.getD t ⟨⟨false, false, fun _ => 0, fun _ => 0⟩, false⟩

end AxisSa

end AxisSystolic
