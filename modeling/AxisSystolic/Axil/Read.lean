import AxisSystolic.Sync.Machine
import AxisSystolic.Sync.Ring
import Mathlib.Data.BitVec
import Mathlib.Data.Nat.Log

/-!
# The read channels of the register port (`alex_axilite_rd.sv`)

An address that is taken in is kept until the register port has been read at it.  The port
is enabled while an address is kept and no data waits for the master, and the read is done
when the port acknowledges it, or when it has been enabled for `TIMEOUT` cycles without
`reg_rd_wait`.

So there are one place for an address and one for data.  Every address taken in is read
once, in order, and what has been read is given to the master once, in order (`Follows`).
-/

namespace AxisSystolic

open Sync

/-- The parameters of `alex_axilite_rd` and `alex_axilite_wr`. -/
structure AxilParams where
  dataWidth : ℕ
  addrWidth : ℕ
  strbWidth : ℕ
  timeout : ℕ

/-- The width of `timeout_count_reg`. -/
abbrev AxilParams.timeoutWidth (p : AxilParams) : ℕ := Nat.clog 2 p.timeout

/-- The inputs of a cycle. -/
structure AxilRdIn (p : AxilParams) where
  araddr : BitVec p.addrWidth
  arvalid : Bool
  rready : Bool
  regRdData : BitVec p.dataWidth
  regRdWait : Bool
  regRdAck : Bool

/-- The registers of `alex_axilite_rd`. -/
structure AxilRd (p : AxilParams) where
  timeoutCount : BitVec p.timeoutWidth
  araddr : BitVec p.addrWidth
  arvalid : Bool
  rdata : BitVec p.dataWidth
  rvalid : Bool
  regRdEn : Bool

namespace AxilRd

variable {p : AxilParams}

/-- `rstn` low. -/
def reset (p : AxilParams) : AxilRd p := ⟨0, 0, false, 0, false, false⟩

variable (s : AxilRd p) (i : AxilRdIn p)

def sArready : Bool := !s.arvalid

/-- The read is done. -/
def rdDone : Bool := s.regRdEn && (i.regRdAck || s.timeoutCount == 0)

def arvalidNext : Bool := if s.arvalid then !s.rdDone i else i.arvalid

def rvalidNext : Bool := if s.rdDone i then true else s.rvalid && !i.rready

/-- A clock edge. -/
def step : AxilRd p where
  timeoutCount :=
    if s.regRdEn && !i.regRdWait && s.timeoutCount != 0 then s.timeoutCount - 1
    else if s.arvalid then s.timeoutCount
    else BitVec.ofNat _ (p.timeout - 1)
  araddr := if s.arvalid then s.araddr else i.araddr
  arvalid := s.arvalidNext i
  rdata := if s.rdDone i then i.regRdData else s.rdata
  rvalid := s.rvalidNext i
  regRdEn := s.arvalidNext i && !s.rvalidNext i

/-- An address is taken in. -/
def arTaken : Option (BitVec p.addrWidth) :=
  if i.arvalid && s.sArready then some i.araddr else none

/-- The register port is read. -/
def regRead : Option (BitVec p.addrWidth × BitVec p.dataWidth) :=
  if s.rdDone i then some (s.araddr, i.regRdData) else none

/-- Data is given to the master. -/
def rTaken : Option (BitVec p.dataWidth) := if s.rvalid && i.rready then some s.rdata else none

end AxilRd

/-- The clocked machine of `alex_axilite_rd`. -/
def axilRd (p : AxilParams) : Machine (AxilRd p) (AxilRdIn p) where
  reset := AxilRd.reset p
  step := AxilRd.step

/-! ### A cycle -/

namespace AxilRd

variable {p : AxilParams} {s : AxilRd p} {i : AxilRdIn p}

/-- The port is enabled for an address that is kept, while no data waits. -/
def Inv (s : AxilRd p) : Prop := s.regRdEn = (s.arvalid && !s.rvalid)

theorem inv_reset : (reset p).Inv := rfl

theorem inv_step (s : AxilRd p) (i : AxilRdIn p) : (s.step i).Inv := rfl

theorem Inv.of_done (h : s.Inv) (hd : s.rdDone i = true) :
    s.arvalid = true ∧ s.rvalid = false := by
  rw [rdDone, Bool.and_eq_true] at hd
  rw [Inv, hd.1] at h
  simpa using h.symm

/-- Addresses `ars` have been taken in, reads `rds` done and data `rs` given out. -/
structure Follows (ars : List (BitVec p.addrWidth))
    (rds : List (BitVec p.addrWidth × BitVec p.dataWidth)) (rs : List (BitVec p.dataWidth))
    (s : AxilRd p) : Prop where
  inv : s.Inv
  addrs : ars = rds.map Prod.fst ++ if s.arvalid then [s.araddr] else []
  data : rds.map Prod.snd = rs ++ if s.rvalid then [s.rdata] else []

variable {ars : List (BitVec p.addrWidth)} {rds : List (BitVec p.addrWidth × BitVec p.dataWidth)}
  {rs : List (BitVec p.dataWidth)}

theorem follows_reset : Follows [] [] [] (reset p) := ⟨inv_reset, rfl, rfl⟩

theorem Follows.step (h : Follows ars rds rs s) (i : AxilRdIn p) :
    Follows (ars ++ (s.arTaken i).toList) (rds ++ (s.regRead i).toList)
      (rs ++ (s.rTaken i).toList) (s.step i) := by
  cases hd : s.rdDone i with
  | true =>
    obtain ⟨hav, hrv⟩ := h.inv.of_done hd
    refine ⟨inv_step s i, ?_, ?_⟩
    · simp [h.addrs, arTaken, sArready, regRead, AxilRd.step, arvalidNext, hd, hav]
    · simp [h.data, regRead, rTaken, AxilRd.step, rvalidNext, hd, hrv]
  | false =>
    refine ⟨inv_step s i, ?_, ?_⟩
    · cases hav : s.arvalid <;> cases hiv : i.arvalid <;>
        simp [h.addrs, arTaken, sArready, regRead, AxilRd.step, arvalidNext, hd, hav, hiv]
    · cases hrv : s.rvalid <;> cases hrr : i.rready <;>
        simp [h.data, regRead, rTaken, AxilRd.step, rvalidNext, hd, hrv, hrr]

/-- Data that the master does not take is offered again. -/
theorem Inv.step_of_stall (h : s.Inv) (hv : s.rvalid = true) (hr : i.rready = false) :
    (s.step i).rvalid = true ∧ (s.step i).rdata = s.rdata := by
  have hd : s.rdDone i = false := by
    by_contra hd
    have := (h.of_done (Bool.eq_true_of_not_eq_false hd)).2
    simp [hv] at this
  simp [AxilRd.step, rvalidNext, hd, hv, hr]

/-! ### Progress -/

/-- What is left before the address that is kept has been read. -/
def left (s : AxilRd p) : ℕ :=
  if s.arvalid then if s.rvalid then 2 ^ p.timeoutWidth + 1 else s.timeoutCount.toNat + 1 else 0

theorem left_ne_zero : s.left ≠ 0 ↔ s.arvalid = true := by
  cases hav : s.arvalid <;> cases hrv : s.rvalid <;> simp [left, hav, hrv]

/-- Data leaves, or the port answers or lets the counter go on. -/
def Goes (s : AxilRd p) (i : AxilRdIn p) : Prop :=
  if s.rvalid then i.rready = true else i.regRdAck = true ∨ i.regRdWait = false

/-- The counter goes down by one when the port does not ask for a wait. -/
theorem step_timeoutCount (hav : s.arvalid = true) : (s.step i).timeoutCount.toNat
    = if s.regRdEn && !i.regRdWait then s.timeoutCount.toNat - 1 else s.timeoutCount.toNat := by
  show (if (s.regRdEn && !i.regRdWait && s.timeoutCount != 0) = true then s.timeoutCount - 1
    else if s.arvalid = true then s.timeoutCount else _).toNat = _
  rw [if_pos hav]
  by_cases hz : s.timeoutCount = 0
  · rw [if_neg (by simp [hz]), hz]
    split <;> rfl
  · cases hen : s.regRdEn && !i.regRdWait with
    | false => simp
    | true => rw [if_pos (by simpa using hz), if_pos rfl, toNat_sub_one hz]

/-- Data only comes to wait when the read is done. -/
theorem Inv.left_step_of_done (h : s.Inv) (hl : s.left ≠ 0) (hno : s.rvalid = false)
    (hyes : (s.step i).rvalid = true) : (s.step i).left < s.left := by
  have hd : s.rdDone i = true := by
    by_contra hd
    simp [AxilRd.step, rvalidNext, hd, hno] at hyes
  have hzero : (s.step i).left = 0 := by
    rw [left, if_neg]
    simp [AxilRd.step, arvalidNext, (h.of_done hd).1, hd]
  rw [hzero]
  exact Nat.pos_of_ne_zero hl

theorem Inv.left_step (h : s.Inv) (hl : s.left ≠ 0) :
    (s.step i).left ≤ s.left ∧ (s.Goes i → (s.step i).left < s.left) := by
  have hav := left_ne_zero.mp hl
  have hcount := step_timeoutCount (i := i) hav
  cases hd : s.rdDone i with
  | true =>
    have hzero : (s.step i).left = 0 := by
      rw [left, if_neg]
      simp [AxilRd.step, arvalidNext, hav, hd]
    rw [hzero]
    exact ⟨Nat.zero_le _, fun _ => Nat.pos_of_ne_zero hl⟩
  | false =>
    have hav' : (s.step i).arvalid = true := by simp [AxilRd.step, arvalidNext, hav, hd]
    cases hrv : s.rvalid with
    | true =>
      have hlt := (s.step i).timeoutCount.isLt
      have hrv' : (s.step i).rvalid = !i.rready := by simp [AxilRd.step, rvalidNext, hd, hrv]
      rw [left, left, Goes, hav, hav', hrv, hrv']
      cases i.rready <;> simp
      omega
    | false =>
      have hrv' : (s.step i).rvalid = false := by simp [AxilRd.step, rvalidNext, hd, hrv]
      have hen : s.regRdEn = true := by rw [h, hav, hrv]; rfl
      -- the port has not answered, so the counter has not run down
      have hno : i.regRdAck = false ∧ s.timeoutCount.toNat ≠ 0 := by
        have : i.regRdAck = false ∧ ¬s.timeoutCount = 0 := by simpa [rdDone, hen] using hd
        exact ⟨this.1, fun h0 => this.2 (BitVec.eq_of_toNat_eq h0)⟩
      rw [left, left, Goes, hav, hav', hrv, hrv', hcount, hen, hno.1]
      cases i.regRdWait <;> simp
      omega

end AxilRd

/-! ### Runs -/

section Runs

variable (p : AxilParams) (v : ℕ → WithRstn (AxilRdIn p))

/-- The addresses that have been taken in since the last reset. -/
def arEvents (t : ℕ) : List (BitVec p.addrWidth) := (axilRd p).sinceReset v AxilRd.arTaken t

/-- The reads of the register port since then. -/
def rdEvents (t : ℕ) : List (BitVec p.addrWidth × BitVec p.dataWidth) :=
  (axilRd p).sinceReset v AxilRd.regRead t

/-- The data that has been given to the master since then. -/
def rEvents (t : ℕ) : List (BitVec p.dataWidth) := (axilRd p).sinceReset v AxilRd.rTaken t

variable {p v}

theorem axilRd_follows (v : ℕ → WithRstn (AxilRdIn p)) (t : ℕ) :
    AxilRd.Follows (arEvents p v t) (rdEvents p v t) (rEvents p v t)
      ((axilRd p).resettable.state v t) := by
  induction t with
  | zero => exact AxilRd.follows_reset
  | succ t ih =>
    cases hr : (v t).rstn with
    | false =>
      rw [arEvents, rdEvents, rEvents, Machine.sinceReset_succ_of_reset hr,
        Machine.sinceReset_succ_of_reset hr, Machine.sinceReset_succ_of_reset hr,
        Machine.resettable_state_succ_of_reset hr]
      exact AxilRd.follows_reset
    | true =>
      rw [arEvents, rdEvents, rEvents, Machine.sinceReset_succ_of_rstn hr,
        Machine.sinceReset_succ_of_rstn hr, Machine.sinceReset_succ_of_rstn hr,
        Machine.resettable_state_succ_of_rstn hr]
      exact ih.step _

/-- Nothing is reset, and neither the master nor the port holds up a read for ever. -/
structure ReadsGo (v : ℕ → WithRstn (AxilRdIn p)) : Prop where
  rstn : ∀ t, (v t).rstn = true
  rready : ∀ t, ∃ m, t ≤ m ∧ (v m).val.rready = true
  port : ∀ t, ∃ m, t ≤ m ∧ ((v m).val.regRdAck = true ∨ (v m).val.regRdWait = false)

variable {t : ℕ}

theorem ReadsGo.state_succ (h : ReadsGo v) (t : ℕ) : (axilRd p).resettable.state v (t + 1)
    = ((axilRd p).resettable.state v t).step (v t).val :=
  Machine.resettable_state_succ_of_rstn (h.rstn t)

/-- The address that is kept is read in the end. -/
theorem exists_read (h : ReadsGo v) (t : ℕ) :
    ∃ m, t ≤ m ∧ ((axilRd p).resettable.state v m).arvalid = false := by
  have hinv := fun m => (axilRd_follows v m).inv
  obtain ⟨m, hm, hzero⟩ := @runs_down_in_two
    (fun m => ((axilRd p).resettable.state v m).left)
    (fun m => ((axilRd p).resettable.state v m).rvalid) _ _
    (fun m hl => by rw [h.state_succ]; exact ((hinv m).left_step hl).1)
    (fun m hl hg => by rw [h.state_succ]; exact ((hinv m).left_step hl).2 hg)
    (fun m hl hno hyes => by
      rw [h.state_succ] at hyes ⊢
      exact (hinv m).left_step_of_done hl hno hyes)
    h.rready h.port t
  exact ⟨m, hm, by_contra fun hav =>
    AxilRd.left_ne_zero.mpr (Bool.eq_true_of_not_eq_false hav) hzero⟩

theorem arEvents_grow (h : ReadsGo v) {m n : ℕ} (hmn : m ≤ n) :
    arEvents p v m <+: arEvents p v n := Machine.sinceReset_mono h.rstn _ hmn

theorem rdEvents_grow (h : ReadsGo v) {m n : ℕ} (hmn : m ≤ n) :
    rdEvents p v m <+: rdEvents p v n := Machine.sinceReset_mono h.rstn _ hmn

/-- The data that has been read is given out in the end. -/
theorem exists_given_of_read (h : ReadsGo v) (t : ℕ) :
    ∃ m, t ≤ m ∧ (rdEvents p v t).length ≤ (rEvents p v m).length := by
  refine @catches_up _ _ (fun m => ((axilRd p).resettable.state v m).rvalid) _
    (fun m m' hm => (rdEvents_grow h hm).length_le) ?_ ?_ h.rready t
  · intro m
    have hdata := congrArg List.length (axilRd_follows v m).data
    rw [List.length_map, List.length_append] at hdata
    rw [hdata]
    cases ((axilRd p).resettable.state v m).rvalid <;> rfl
  · intro m hrv hready
    have htaken : ((axilRd p).resettable.state v m).rTaken (v m).val
        = some ((axilRd p).resettable.state v m).rdata := by
      simp [AxilRd.rTaken, hrv, hready]
    rw [rEvents, Machine.sinceReset_succ_of_rstn (h.rstn m), htaken, List.length_append]
    rfl

/-- **Every address is read at the register port once, in order, and the master gets what
has been read there once, in order.**  What it does not take stays.  Every read is
answered, even if the port never acknowledges it, as long as it does not ask for a wait
for ever. -/
theorem axilRd_run (v : ℕ → WithRstn (AxilRdIn p)) :
    let s := (axilRd p).resettable.state v
    (∀ t, arEvents p v t
        = (rdEvents p v t).map Prod.fst ++ (if (s t).arvalid then [(s t).araddr] else []) ∧
      (rdEvents p v t).map Prod.snd
        = rEvents p v t ++ if (s t).rvalid then [(s t).rdata] else []) ∧
    (∀ t, (v t).rstn = true → (s t).rvalid = true → (v t).val.rready = false →
      (s (t + 1)).rvalid = true ∧ (s (t + 1)).rdata = (s t).rdata) ∧
    (ReadsGo v → ∀ t, ∃ m, t ≤ m ∧ (arEvents p v t).length ≤ (rEvents p v m).length) := by
  refine ⟨fun t => ⟨(axilRd_follows v t).addrs, (axilRd_follows v t).data⟩, ?_, ?_⟩
  · intro t hr hv hno
    rw [Machine.resettable_state_succ_of_rstn hr]
    exact (axilRd_follows v t).inv.step_of_stall hv hno
  · intro h t
    obtain ⟨m, hm, hav⟩ := exists_read h t
    obtain ⟨n, hn, hle⟩ := exists_given_of_read h m
    refine ⟨n, Nat.le_trans hm hn, Nat.le_trans ?_ hle⟩
    have haddrs := congrArg List.length (axilRd_follows v m).addrs
    simp only [hav, Bool.false_eq_true, if_false, List.append_nil, List.length_map] at haddrs
    rw [← haddrs]
    exact (arEvents_grow h hm).length_le

end Runs

/-- The port's default parameters. -/
abbrev axilDefault : AxilParams := ⟨32, 40, 4, 2⟩

/-- The port never acknowledges and asks for a wait in every other cycle, and the
master takes data in every third. -/
def slowReads (t : ℕ) : WithRstn (AxilRdIn axilDefault) where
  rstn := true
  val := ⟨BitVec.ofNat 40 (4 * t), true, t % 3 == 0, BitVec.ofNat 32 t, t % 2 == 1, false⟩

theorem slowReads_go : ReadsGo slowReads where
  rstn _ := rfl
  rready t := ⟨3 * t, by omega, by simp [slowReads]⟩
  port t := ⟨2 * t, by omega, Or.inr (by simp [slowReads])⟩

/-- The reads of the first twelve cycles are answered all the same. -/
theorem slowReads_answered : ∃ m, 3 ≤ (rEvents axilDefault slowReads m).length := by
  obtain ⟨m, _, hle⟩ := (axilRd_run slowReads).2.2 slowReads_go 12
  exact ⟨m, Nat.le_trans (by decide) hle⟩

end AxisSystolic
