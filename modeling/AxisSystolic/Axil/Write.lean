import AxisSystolic.Axil.Read

/-!
# The write channels of the register port (`alex_axilite_wr.sv`)

The address and the data of a write come on two channels, in any order.  There is one place
for each, and one for the response: the port is enabled while both an address and data are
kept and no response waits for the master.

The `k`-th address goes with the `k`-th data, whenever they come, and each pair is written
once, in order, and has one response (`Follows`).
-/

namespace AxisSystolic

open Sync

/-- The inputs of a cycle. -/
structure AxilWrIn (p : AxilParams) where
  awaddr : BitVec p.addrWidth
  awvalid : Bool
  wdata : BitVec p.dataWidth
  wstrb : BitVec p.strbWidth
  wvalid : Bool
  bready : Bool
  regWrWait : Bool
  regWrAck : Bool

/-- The registers of `alex_axilite_wr`. -/
structure AxilWr (p : AxilParams) where
  timeoutCount : BitVec p.timeoutWidth
  awaddr : BitVec p.addrWidth
  awvalid : Bool
  wdata : BitVec p.dataWidth
  wstrb : BitVec p.strbWidth
  wvalid : Bool
  bvalid : Bool
  regWrEn : Bool

/-- A write of the register port. -/
structure RegWrite (p : AxilParams) where
  addr : BitVec p.addrWidth
  data : BitVec p.dataWidth
  strb : BitVec p.strbWidth

namespace AxilWr

variable {p : AxilParams}

/-- `rstn` low. -/
def reset (p : AxilParams) : AxilWr p := ⟨0, 0, false, 0, 0, false, false, false⟩

variable (s : AxilWr p) (i : AxilWrIn p)

def sAwready : Bool := !s.awvalid

def sWready : Bool := !s.wvalid

/-- The write is done. -/
def wrDone : Bool := s.regWrEn && (i.regWrAck || s.timeoutCount == 0)

def awvalidNext : Bool := if s.awvalid then !s.wrDone i else i.awvalid

def wvalidNext : Bool := if s.wvalid then !s.wrDone i else i.wvalid

def bvalidNext : Bool := if s.wrDone i then true else s.bvalid && !i.bready

/-- A clock edge. -/
def step : AxilWr p where
  timeoutCount :=
    if s.regWrEn && !i.regWrWait && s.timeoutCount != 0 then s.timeoutCount - 1
    else if s.awvalid then s.timeoutCount
    else BitVec.ofNat _ (p.timeout - 1)
  awaddr := if s.awvalid then s.awaddr else i.awaddr
  awvalid := s.awvalidNext i
  wdata := if s.wvalid then s.wdata else i.wdata
  wstrb := if s.wvalid then s.wstrb else i.wstrb
  wvalid := s.wvalidNext i
  bvalid := s.bvalidNext i
  regWrEn := s.awvalidNext i && s.wvalidNext i && !s.bvalidNext i

/-- An address is taken in. -/
def awTaken : Option (BitVec p.addrWidth) :=
  if i.awvalid && s.sAwready then some i.awaddr else none

/-- Data is taken in. -/
def wTaken : Option (BitVec p.dataWidth × BitVec p.strbWidth) :=
  if i.wvalid && s.sWready then some (i.wdata, i.wstrb) else none

/-- The register port is written. -/
def regWritten : Option (RegWrite p) :=
  if s.wrDone i then some ⟨s.awaddr, s.wdata, s.wstrb⟩ else none

/-- A response is given to the master. -/
def bTaken : Option Unit := if s.bvalid && i.bready then some () else none

end AxilWr

/-- The clocked machine of `alex_axilite_wr`. -/
def axilWr (p : AxilParams) : Machine (AxilWr p) (AxilWrIn p) where
  reset := AxilWr.reset p
  step := AxilWr.step

/-! ### A cycle -/

namespace AxilWr

variable {p : AxilParams} {s : AxilWr p} {i : AxilWrIn p}

/-- The port is enabled for an address and data that are kept, while no response waits. -/
def Inv (s : AxilWr p) : Prop := s.regWrEn = (s.awvalid && s.wvalid && !s.bvalid)

theorem inv_reset : (reset p).Inv := rfl

theorem inv_step (s : AxilWr p) (i : AxilWrIn p) : (s.step i).Inv := rfl

theorem Inv.of_done (h : s.Inv) (hd : s.wrDone i = true) :
    s.awvalid = true ∧ s.wvalid = true ∧ s.bvalid = false := by
  rw [wrDone, Bool.and_eq_true] at hd
  rw [Inv, hd.1] at h
  simpa [and_assoc] using h.symm

/-- Addresses `aws` and data `ws` have been taken in, writes `wrs` done and as many responses
given as `bs` is long. -/
structure Follows (aws : List (BitVec p.addrWidth))
    (ws : List (BitVec p.dataWidth × BitVec p.strbWidth)) (wrs : List (RegWrite p))
    (bs : List Unit) (s : AxilWr p) : Prop where
  inv : s.Inv
  addrs : aws = wrs.map RegWrite.addr ++ if s.awvalid then [s.awaddr] else []
  data : ws = wrs.map (fun w => (w.data, w.strb)) ++ if s.wvalid then [(s.wdata, s.wstrb)] else []
  resps : wrs.length = bs.length + if s.bvalid then 1 else 0

variable {aws : List (BitVec p.addrWidth)} {ws : List (BitVec p.dataWidth × BitVec p.strbWidth)}
  {wrs : List (RegWrite p)} {bs : List Unit}

theorem follows_reset : Follows [] [] [] [] (reset p) := ⟨inv_reset, rfl, rfl, rfl⟩

theorem Follows.step (h : Follows aws ws wrs bs s) (i : AxilWrIn p) :
    Follows (aws ++ (s.awTaken i).toList) (ws ++ (s.wTaken i).toList)
      (wrs ++ (s.regWritten i).toList) (bs ++ (s.bTaken i).toList) (s.step i) := by
  cases hd : s.wrDone i with
  | true =>
    obtain ⟨haw, hw, hb⟩ := h.inv.of_done hd
    refine ⟨inv_step s i, ?_, ?_, ?_⟩
    · simp [h.addrs, awTaken, sAwready, regWritten, AxilWr.step, awvalidNext, hd, haw]
    · simp [h.data, wTaken, sWready, regWritten, AxilWr.step, wvalidNext, hd, hw]
    · simp [h.resps, regWritten, bTaken, AxilWr.step, bvalidNext, hd, hb]
  | false =>
    refine ⟨inv_step s i, ?_, ?_, ?_⟩
    · cases haw : s.awvalid <;> cases hi : i.awvalid <;>
        simp [h.addrs, awTaken, sAwready, regWritten, AxilWr.step, awvalidNext, hd, haw, hi]
    · cases hw : s.wvalid <;> cases hi : i.wvalid <;>
        simp [h.data, wTaken, sWready, regWritten, AxilWr.step, wvalidNext, hd, hw, hi]
    · cases hb : s.bvalid <;> cases hi : i.bready <;>
        simp [h.resps, regWritten, bTaken, AxilWr.step, bvalidNext, hd, hb, hi]

/-- A response that the master does not take is offered again. -/
theorem Inv.step_of_stall (h : s.Inv) (hv : s.bvalid = true) (hr : i.bready = false) :
    (s.step i).bvalid = true := by
  have hd : s.wrDone i = false := by
    by_contra hd
    have := (h.of_done (Bool.eq_true_of_not_eq_false hd)).2.2
    simp [hv] at this
  simp [AxilWr.step, bvalidNext, hd, hv, hr]

/-! ### Progress -/

/-- What is left before the address and the data that are kept have been written. -/
def left (s : AxilWr p) : ℕ :=
  if s.awvalid && s.wvalid then
    if s.bvalid then 2 ^ p.timeoutWidth + 1 else s.timeoutCount.toNat + 1
  else 0

theorem left_ne_zero : s.left ≠ 0 ↔ s.awvalid = true ∧ s.wvalid = true := by
  cases haw : s.awvalid <;> cases hw : s.wvalid <;> cases hb : s.bvalid <;>
    simp [left, haw, hw, hb]

/-- A response leaves, or the port answers or lets the counter go on. -/
def Goes (s : AxilWr p) (i : AxilWrIn p) : Prop :=
  if s.bvalid then i.bready = true else i.regWrAck = true ∨ i.regWrWait = false

/-- The counter goes down by one when the port does not ask for a wait. -/
theorem step_timeoutCount (haw : s.awvalid = true) : (s.step i).timeoutCount.toNat
    = if s.regWrEn && !i.regWrWait then s.timeoutCount.toNat - 1 else s.timeoutCount.toNat := by
  show (if (s.regWrEn && !i.regWrWait && s.timeoutCount != 0) = true then s.timeoutCount - 1
    else if s.awvalid = true then s.timeoutCount else _).toNat = _
  rw [if_pos haw]
  by_cases hz : s.timeoutCount = 0
  · rw [if_neg (by simp [hz]), hz]
    split <;> rfl
  · cases hen : s.regWrEn && !i.regWrWait with
    | false => simp
    | true => rw [if_pos (by simpa using hz), if_pos rfl, toNat_sub_one hz]

/-- A response only comes to wait when the write is done. -/
theorem Inv.left_step_of_done (h : s.Inv) (hl : s.left ≠ 0) (hno : s.bvalid = false)
    (hyes : (s.step i).bvalid = true) : (s.step i).left < s.left := by
  have hd : s.wrDone i = true := by
    by_contra hd
    simp [AxilWr.step, bvalidNext, hd, hno] at hyes
  have hzero : (s.step i).left = 0 := by
    rw [left, if_neg]
    simp [AxilWr.step, awvalidNext, (h.of_done hd).1, hd]
  rw [hzero]
  exact Nat.pos_of_ne_zero hl

theorem Inv.left_step (h : s.Inv) (hl : s.left ≠ 0) :
    (s.step i).left ≤ s.left ∧ (s.Goes i → (s.step i).left < s.left) := by
  obtain ⟨haw, hw⟩ := left_ne_zero.mp hl
  have hcount := step_timeoutCount (i := i) haw
  cases hd : s.wrDone i with
  | true =>
    have hzero : (s.step i).left = 0 := by
      rw [left, if_neg]
      simp [AxilWr.step, awvalidNext, haw, hd]
    rw [hzero]
    exact ⟨Nat.zero_le _, fun _ => Nat.pos_of_ne_zero hl⟩
  | false =>
    have haw' : (s.step i).awvalid = true := by simp [AxilWr.step, awvalidNext, haw, hd]
    have hw' : (s.step i).wvalid = true := by simp [AxilWr.step, wvalidNext, hw, hd]
    cases hb : s.bvalid with
    | true =>
      have hlt := (s.step i).timeoutCount.isLt
      have hb' : (s.step i).bvalid = !i.bready := by simp [AxilWr.step, bvalidNext, hd, hb]
      rw [left, left, Goes, haw, haw', hw, hw', hb, hb']
      cases i.bready <;> simp
      omega
    | false =>
      have hb' : (s.step i).bvalid = false := by simp [AxilWr.step, bvalidNext, hd, hb]
      have hen : s.regWrEn = true := by rw [h, haw, hw, hb]; rfl
      -- the port has not answered, so the counter has not run down
      have hno : i.regWrAck = false ∧ s.timeoutCount.toNat ≠ 0 := by
        have : i.regWrAck = false ∧ ¬s.timeoutCount = 0 := by simpa [wrDone, hen] using hd
        exact ⟨this.1, fun h0 => this.2 (BitVec.eq_of_toNat_eq h0)⟩
      rw [left, left, Goes, haw, haw', hw, hw', hb, hb', hcount, hen, hno.1]
      cases i.regWrWait <;> simp
      omega

end AxilWr

/-! ### Runs -/

section Runs

variable (p : AxilParams) (v : ℕ → WithRstn (AxilWrIn p))

/-- The addresses that have been taken in since the last reset. -/
def awEvents (t : ℕ) : List (BitVec p.addrWidth) := (axilWr p).sinceReset v AxilWr.awTaken t

/-- The data that has been taken in since then. -/
def wEvents (t : ℕ) : List (BitVec p.dataWidth × BitVec p.strbWidth) :=
  (axilWr p).sinceReset v AxilWr.wTaken t

/-- The writes of the register port since then. -/
def wrEvents (t : ℕ) : List (RegWrite p) := (axilWr p).sinceReset v AxilWr.regWritten t

/-- The responses since then. -/
def bEvents (t : ℕ) : List Unit := (axilWr p).sinceReset v AxilWr.bTaken t

variable {p v}

theorem axilWr_follows (v : ℕ → WithRstn (AxilWrIn p)) (t : ℕ) :
    AxilWr.Follows (awEvents p v t) (wEvents p v t) (wrEvents p v t) (bEvents p v t)
      ((axilWr p).resettable.state v t) := by
  induction t with
  | zero => exact AxilWr.follows_reset
  | succ t ih =>
    cases hr : (v t).rstn with
    | false =>
      rw [awEvents, wEvents, wrEvents, bEvents, Machine.sinceReset_succ_of_reset hr,
        Machine.sinceReset_succ_of_reset hr, Machine.sinceReset_succ_of_reset hr,
        Machine.sinceReset_succ_of_reset hr, Machine.resettable_state_succ_of_reset hr]
      exact AxilWr.follows_reset
    | true =>
      rw [awEvents, wEvents, wrEvents, bEvents, Machine.sinceReset_succ_of_rstn hr,
        Machine.sinceReset_succ_of_rstn hr, Machine.sinceReset_succ_of_rstn hr,
        Machine.sinceReset_succ_of_rstn hr, Machine.resettable_state_succ_of_rstn hr]
      exact ih.step _

/-- Nothing is reset, and neither the master nor the port holds up a write for ever. -/
structure WritesGo (v : ℕ → WithRstn (AxilWrIn p)) : Prop where
  rstn : ∀ t, (v t).rstn = true
  bready : ∀ t, ∃ m, t ≤ m ∧ (v m).val.bready = true
  port : ∀ t, ∃ m, t ≤ m ∧ ((v m).val.regWrAck = true ∨ (v m).val.regWrWait = false)

variable {t : ℕ}

theorem WritesGo.state_succ (h : WritesGo v) (t : ℕ) : (axilWr p).resettable.state v (t + 1)
    = ((axilWr p).resettable.state v t).step (v t).val :=
  Machine.resettable_state_succ_of_rstn (h.rstn t)

/-- An address and data that are kept are written in the end. -/
theorem exists_written (h : WritesGo v) (t : ℕ) :
    ∃ m, t ≤ m ∧ ((axilWr p).resettable.state v m).left = 0 := by
  have hinv := fun m => (axilWr_follows v m).inv
  exact @runs_down_in_two
    (fun m => ((axilWr p).resettable.state v m).left)
    (fun m => ((axilWr p).resettable.state v m).bvalid) _ _
    (fun m hl => by rw [h.state_succ]; exact ((hinv m).left_step hl).1)
    (fun m hl hg => by rw [h.state_succ]; exact ((hinv m).left_step hl).2 hg)
    (fun m hl hno hyes => by
      rw [h.state_succ] at hyes ⊢
      exact (hinv m).left_step_of_done hl hno hyes)
    h.bready h.port t

/-- What has been written is answered in the end. -/
theorem exists_answered (h : WritesGo v) (t : ℕ) :
    ∃ m, t ≤ m ∧ (wrEvents p v t).length ≤ (bEvents p v m).length := by
  refine @catches_up _ _ (fun m => ((axilWr p).resettable.state v m).bvalid) _
    (fun m m' hm => (Machine.sinceReset_mono h.rstn _ hm).length_le)
    (fun m => (axilWr_follows v m).resps) ?_ h.bready t
  intro m hb hready
  have htaken : ((axilWr p).resettable.state v m).bTaken (v m).val = some () := by
    simp [AxilWr.bTaken, hb, hready]
  rw [bEvents, Machine.sinceReset_succ_of_rstn (h.rstn m), htaken, List.length_append]
  rfl

/-- **The `k`-th address and the `k`-th data are written together, once and in order, and
each write is answered once.**  A response that is not taken stays.  Once both have been
taken in the write is answered, even if the port never acknowledges it, as long as it does
not ask for a wait for ever. -/
theorem axilWr_run (v : ℕ → WithRstn (AxilWrIn p)) :
    let s := (axilWr p).resettable.state v
    (∀ t, awEvents p v t
        = (wrEvents p v t).map RegWrite.addr ++ (if (s t).awvalid then [(s t).awaddr] else []) ∧
      wEvents p v t = (wrEvents p v t).map (fun w => (w.data, w.strb))
        ++ (if (s t).wvalid then [((s t).wdata, (s t).wstrb)] else []) ∧
      (wrEvents p v t).length = (bEvents p v t).length + if (s t).bvalid then 1 else 0) ∧
    (∀ t, (v t).rstn = true → (s t).bvalid = true → (v t).val.bready = false →
      (s (t + 1)).bvalid = true) ∧
    (WritesGo v → ∀ t, ∃ m, t ≤ m ∧
      min (awEvents p v t).length (wEvents p v t).length ≤ (bEvents p v m).length) := by
  refine ⟨fun t => ?_, ?_, ?_⟩
  · have h := axilWr_follows v t
    exact ⟨h.addrs, h.data, h.resps⟩
  · intro t hr hv hno
    rw [Machine.resettable_state_succ_of_rstn hr]
    exact (axilWr_follows v t).inv.step_of_stall hv hno
  · intro h t
    obtain ⟨m, hm, hzero⟩ := exists_written h t
    obtain ⟨n, hn, hle⟩ := exists_answered h m
    refine ⟨n, Nat.le_trans hm hn, Nat.le_trans ?_ hle⟩
    have haddrs := congrArg List.length (axilWr_follows v m).addrs
    have hdata := congrArg List.length (axilWr_follows v m).data
    have haw : (awEvents p v t).length ≤ (awEvents p v m).length :=
      (Machine.sinceReset_mono h.rstn _ hm).length_le
    have hw : (wEvents p v t).length ≤ (wEvents p v m).length :=
      (Machine.sinceReset_mono h.rstn _ hm).length_le
    rw [List.length_append, List.length_map] at haddrs hdata
    -- one of the two places is empty
    have hplace : ((axilWr p).resettable.state v m).awvalid = false ∨
        ((axilWr p).resettable.state v m).wvalid = false := by
      by_contra hno
      have hboth : ((axilWr p).resettable.state v m).awvalid = true ∧
          ((axilWr p).resettable.state v m).wvalid = true := by simpa using hno
      exact AxilWr.left_ne_zero.mpr hboth hzero
    rcases hplace with hp | hp
    · simp only [hp, Bool.false_eq_true, if_false, List.length_nil] at haddrs
      omega
    · simp only [hp, Bool.false_eq_true, if_false, List.length_nil] at hdata
      omega

end Runs

/-- The same for writes, whose data come in every fourth cycle. -/
def slowWrites (t : ℕ) : WithRstn (AxilWrIn axilDefault) where
  rstn := true
  val := ⟨BitVec.ofNat 40 (4 * t), true, BitVec.ofNat 32 t, 15, t % 4 == 0, t % 3 == 0,
    t % 2 == 1, false⟩

theorem slowWrites_go : WritesGo slowWrites where
  rstn _ := rfl
  bready t := ⟨3 * t, by omega, by simp [slowWrites]⟩
  port t := ⟨2 * t, by omega, Or.inr (by simp [slowWrites])⟩

theorem slowWrites_answered : ∃ m, 3 ≤ (bEvents axilDefault slowWrites m).length := by
  obtain ⟨m, _, hle⟩ := (axilWr_run slowWrites).2.2 slowWrites_go 16
  exact ⟨m, Nat.le_trans (by decide) hle⟩

end AxisSystolic
