import AxisSystolic.Ibex.Bus
import AxisSystolic.Ibex.DevToMaxil

/-!
# The accelerator's configuration port (`ibex_simple_system.sv`)

The bus pulses the request of the bridge for one cycle and does not look at the
bridge's grant, which is left open.  While every request has been captured the
bridge is idle exactly when the bus does not wait for it (`InStep`), so a request
is lost only to the read throttle: the requests are captured if and only if the
reads are spaced as the throttle wants them (`ReadsSpaced`).  A poll gap of at most
six cycles is kept in every run (`readsSpaced_of_pollGap_le`); with a longer one a
read can be lost, and then the bus hangs (`not_answered_of_hung`).
-/

namespace AxisSystolic

open Sync

/-- The parameters of the system: those of the bus, the index of the bridge among
the devices, and the parameters of the bridge. -/
structure SocParams where
  nrDevices : ℕ
  nrHosts : ℕ
  cfgDeviceAddrBase : ℕ → BitVec 32
  cfgDeviceAddrMask : ℕ → BitVec 32
  saConfig : ℕ
  maxil : MaxilParams

abbrev SocParams.bus (c : SocParams) : BusParams :=
  ⟨c.nrDevices, c.nrHosts, 32, 32, c.cfgDeviceAddrBase, c.cfgDeviceAddrMask⟩

/-- The hosts, the other devices, and the AXI-Lite slave behind the bridge. -/
structure SaConfigIn (c : SocParams) where
  host : ℕ → HostPort c.bus
  device : ℕ → BusResp c.bus
  slave : AxilSlave c.maxil

/-- The bus and the bridge. -/
structure SaConfig (c : SocParams) where
  bus : Bus c.bus
  bridge : DevToMaxil c.maxil

namespace SaConfig

variable {c : SocParams} (s : SaConfig c) (i : SaConfigIn c)

def busIn : BusIn c.bus where
  host := i.host
  device d := if d = c.saConfig then
      ⟨s.bridge.dataRvalid, s.bridge.dataRdata, s.bridge.dataErr⟩
    else i.device d

/-- The bus pulses the request of the bridge. -/
def saReq : Bool := s.bus.deviceReq (s.busIn i) c.saConfig

def saAccess : BusAccess c.bus := s.bus.deviceAccess (s.busIn i) c.saConfig

def maxilIn : MaxilIn c.maxil where
  toAxilSlave := i.slave
  dataReq := s.saReq i
  dataAddr := (s.saAccess i).addr
  dataWe := (s.saAccess i).we
  dataBe := (s.saAccess i).be.setWidth 4
  dataWdata := (s.saAccess i).wdata

/-- The bridge captures a request. -/
def captures : Bool := s.bridge.canGrant (s.maxilIn i)

/-- The bus has a request of the bridge in flight. -/
def saWaits : Bool :=
  s.bus.busy && !s.bus.decodeErrPending && s.bus.pendDevice == c.saConfig

/-- Nothing holds up what the bus waits for: neither the AXI-Lite slave the bridge,
nor another device its response. -/
def served : Bool :=
  !s.bus.busy || s.bus.decodeErrPending ||
    if s.bus.pendDevice = c.saConfig then DevToMaxil.slaveGo i.slave s.bridge.state
    else (i.device s.bus.pendDevice).rvalid

end SaConfig

/-- The clocked machine of the bus and the bridge. -/
def saConfig (c : SocParams) : Machine (SaConfig c) (SaConfigIn c) where
  reset := ⟨(bus c.bus).reset, (devToMaxil c.maxil).reset⟩
  step s i := ⟨(bus c.bus).step s.bus (s.busIn i), (devToMaxil c.maxil).step s.bridge (s.maxilIn i)⟩

section Run

variable (c : SocParams) (u : ℕ → SaConfigIn c)

/-- What the bus sees in a run. -/
def busTrace (n : ℕ) : BusIn c.bus := ((saConfig c).state u n).busIn (u n)

/-- The cycles without a request of the bridge since its last read request. -/
def sinceRead : ℕ → Option ℕ
  | 0 => none
  | n + 1 =>
    if ((saConfig c).state u n).saReq (u n) = true then
      if (((saConfig c).state u n).saAccess (u n)).we = true then sinceRead n else some 0
    else (sinceRead n).map (· + 1)

/-- A read is requested only after `POLL_GAP - 1` cycles without a request since
the read before it. -/
def ReadsSpaced : Prop :=
  ∀ n, ((saConfig c).state u n).saReq (u n) = true →
    (((saConfig c).state u n).saAccess (u n)).we = false →
    ∀ k ∈ sinceRead c u n, c.maxil.pollGap - 1 ≤ k

/-- Nothing is held up for ever. -/
def Served : Prop := ∀ n, ∃ k, n ≤ k ∧ ((saConfig c).state u k).served (u k) = true

variable {c u}

theorem saConfig_bus (n : ℕ) :
    ((saConfig c).state u n).bus = (bus c.bus).state (busTrace c u) n := by
  induction n with
  | zero => rfl
  | succ n ih =>
    rw [Machine.state_succ, Machine.state_succ, ← ih]
    rfl

end Run

/-! ### The bus and the bridge keep in step -/

/-- What holds while every request has been captured. -/
structure InStep {c : SocParams} (s : SaConfig c) (k : Option ℕ) : Prop where
  decodeErr : s.bus.decodeErrPending = true → s.bus.busy = true
  idle : s.saWaits = false → s.bridge.state = .idle ∧ s.bridge.reqValid = false
  waits : s.saWaits = true → s.bridge.reqValid = true
  cooldown : s.bridge.rdCooldown.toNat = (k.map (c.maxil.pollGap - 1 - ·)).getD 0

namespace SaConfig

variable {c : SocParams} {s : SaConfig c} {i : SaConfigIn c}

theorem step_bus : ((saConfig c).step s i).bus = s.bus.step (s.busIn i) := rfl

theorem step_bridge : ((saConfig c).step s i).bridge = s.bridge.step (s.maxilIn i) := rfl

theorem not_busy_of_saReq (h : s.saReq i = true) : s.bus.busy = false := by
  simp only [saReq, Bus.deviceReq, Bus.issueReq, Bool.and_eq_true, Bool.not_eq_true'] at h
  exact h.1.1.1.1

theorem not_saWaits_of_saReq (h : s.saReq i = true) : s.saWaits = false := by
  simp [saWaits, not_busy_of_saReq h]

theorem not_captures_of_not_saReq (h : s.saReq i = false) : s.captures i = false := by
  simp [captures, DevToMaxil.canGrant, DevToMaxil.wantWrite, DevToMaxil.wantRead, maxilIn, h]

/-- A bus that waits for the bridge leaves off with the bridge's response. -/
theorem bus_step_of_saWaits (h : s.saWaits = true) : s.bus.step (s.busIn i) =
    { s.bus with busy := !s.bridge.dataRvalid, decodeErrPending := false } := by
  simp only [saWaits, Bool.and_eq_true, Bool.not_eq_true', beq_iff_eq] at h
  rw [Bus.step_of_busy h.1.1, h.1.2]
  simp [busIn, h.2]

theorem bus_step_of_saReq (h : s.saReq i = true) : s.bus.step (s.busIn i) =
    { s.bus with
      busy := true
      pendHost := Bus.hostSelReq (s.busIn i)
      pendDevice := c.saConfig } := by
  simp only [saReq, Bus.deviceReq, Bool.and_eq_true, beq_iff_eq] at h
  rw [Bus.step_of_issueReq h.1, h.2]

theorem saWaits_iff : s.saWaits = true ↔
    s.bus.busy = true ∧ s.bus.decodeErrPending = false ∧ s.bus.pendDevice = c.saConfig := by
  simp [saWaits, and_assoc]

/-- The bus comes to wait for the bridge only through a request. -/
theorem not_saWaits_next (hr : s.saReq i = false) (hw : s.saWaits = false) :
    ((saConfig c).step s i).saWaits = false := by
  by_contra hw'
  have hw'' := saWaits_iff.mp (Bool.not_eq_false _ ▸ hw')
  rw [step_bus] at hw''
  rcases hb : s.bus.busy with _ | _
  · rcases h1 : s.bus.issueReq (s.busIn i) with _ | _
    · rcases h2 : s.bus.issueDecErr (s.busIn i) with _ | _
      · rw [Bus.step_of_quiet hb h1 h2, hb] at hw''
        cases hw''.1
      · rw [Bus.step_of_issueDecErr h2] at hw''
        cases hw''.2.1
    · rw [Bus.step_of_issueReq h1] at hw''
      have hreq : s.saReq i = true := by
        rw [saReq, Bus.deviceReq, h1, Bool.true_and, beq_iff_eq]
        exact hw''.2.2.symm
      rw [hr] at hreq
      cases hreq
  · rw [Bus.step_of_busy hb] at hw''
    rcases hd : s.bus.decodeErrPending with _ | _
    · rw [saWaits_iff.mpr ⟨hb, hd, hw''.2.2⟩] at hw
      cases hw
    · simp [hd] at hw''

theorem step_decodeErr (h : s.bus.decodeErrPending = true → s.bus.busy = true)
    (hd : ((saConfig c).step s i).bus.decodeErrPending = true) :
    ((saConfig c).step s i).bus.busy = true := by
  rw [step_bus] at hd ⊢
  rcases hb : s.bus.busy with _ | _
  · rcases h1 : s.bus.issueReq (s.busIn i) with _ | _
    · rcases h2 : s.bus.issueDecErr (s.busIn i) with _ | _
      · rw [Bus.step_of_quiet hb h1 h2] at hd ⊢
        exact h hd
      · rw [Bus.step_of_issueDecErr h2]
    · rw [Bus.step_of_issueReq h1]
  · rw [Bus.step_of_busy hb] at hd
    cases hd

end SaConfig

namespace InStep

variable {c : SocParams} {s : SaConfig c} {i : SaConfigIn c} {k : Option ℕ}

theorem cooldown_le (h : InStep s k) :
    s.bridge.rdCooldown.toNat ≤ c.maxil.pollGap - 1 := by
  rw [h.cooldown]
  cases k with
  | none => exact Nat.zero_le _
  | some j => exact Nat.sub_le _ _

theorem rdOk_iff (h : InStep s k) :
    s.bridge.rdOk = true ↔ ∀ j ∈ k, c.maxil.pollGap - 1 ≤ j := by
  rw [DevToMaxil.rdOk_iff h.cooldown_le, h.cooldown]
  cases k with
  | none => simp
  | some j => simp [Nat.sub_eq_zero_iff_le]

/-- Of the requests of an idle bridge only a read that comes too soon is lost. -/
theorem captures_iff (h : InStep s k) (hr : s.saReq i = true) : s.captures i = true ↔
    ((s.saAccess i).we = false → ∀ j ∈ k, c.maxil.pollGap - 1 ≤ j) := by
  obtain ⟨hidle, hvalid⟩ := h.idle (SaConfig.not_saWaits_of_saReq hr)
  rw [SaConfig.captures, DevToMaxil.canGrant_of_idle hidle hvalid, ← h.rdOk_iff]
  cases hw : (s.saAccess i).we <;>
    simp [DevToMaxil.wantWrite, DevToMaxil.wantRead, SaConfig.maxilIn, hr, hw]

theorem reset : InStep (saConfig c).reset none where
  decodeErr h := by cases h
  idle _ := ⟨rfl, rfl⟩
  waits h := by cases h
  cooldown := rfl

/-- A captured request. -/
theorem step_request (h : InStep s k) (hr : s.saReq i = true) (hc : s.captures i = true) :
    InStep ((saConfig c).step s i) (if (s.saAccess i).we = true then k else some 0) where
  decodeErr := SaConfig.step_decodeErr h.decodeErr
  idle hw := by
    have hd : s.bus.decodeErrPending = false := by
      by_contra hd
      have hb := h.decodeErr (Bool.not_eq_false _ ▸ hd)
      rw [SaConfig.not_busy_of_saReq hr] at hb
      cases hb
    have hw' : ((saConfig c).step s i).saWaits = true := by
      rw [SaConfig.saWaits_iff, SaConfig.step_bus, SaConfig.bus_step_of_saReq hr]
      exact ⟨rfl, hd, rfl⟩
    rw [hw] at hw'
    cases hw'
  waits _ := by
    obtain ⟨hidle, hvalid⟩ := h.idle (SaConfig.not_saWaits_of_saReq hr)
    exact (DevToMaxil.step_of_idle hidle hvalid).2.trans hc
  cooldown := by
    have hg : s.bridge.canGrant (s.maxilIn i) = true := hc
    rw [SaConfig.step_bridge, DevToMaxil.step_rdCooldown h.cooldown_le, if_pos hg, h.cooldown]
    show (if (s.saAccess i).we = true then _ else _) = _
    by_cases hw : (s.saAccess i).we = true
    · rw [if_pos hw, if_pos hw]
    · rw [if_neg hw, if_neg hw]
      rfl

/-- A cycle without a request. -/
theorem step_quiet (h : InStep s k) (hr : s.saReq i = false) :
    InStep ((saConfig c).step s i) (k.map (· + 1)) where
  decodeErr := SaConfig.step_decodeErr h.decodeErr
  idle hw := by
    rw [SaConfig.step_bridge]
    rcases hw0 : s.saWaits with _ | _
    · obtain ⟨hidle, hvalid⟩ := h.idle hw0
      have hstep := DevToMaxil.step_of_idle (i := s.maxilIn i) hidle hvalid
      exact ⟨hstep.1, hstep.2.trans (SaConfig.not_captures_of_not_saReq hr)⟩
    · by_cases hs : s.bridge.state = .resp
      · exact DevToMaxil.step_of_resp hs
      · have hw' : ((saConfig c).step s i).saWaits = true := by
          rw [SaConfig.saWaits_iff, SaConfig.step_bus, SaConfig.bus_step_of_saWaits hw0]
          exact ⟨by simp [DevToMaxil.dataRvalid, hs], rfl, (SaConfig.saWaits_iff.mp hw0).2.2⟩
        rw [hw] at hw'
        cases hw'
  waits hw := by
    have hw0 : s.saWaits = true := by
      by_contra hw0
      rw [SaConfig.not_saWaits_next hr (Bool.not_eq_true _ ▸ hw0)] at hw
      cases hw
    have hs : s.bridge.state ≠ .resp := by
      intro hs
      have hb := (SaConfig.saWaits_iff.mp hw).1
      rw [SaConfig.step_bus, SaConfig.bus_step_of_saWaits hw0] at hb
      simp [DevToMaxil.dataRvalid, hs] at hb
    exact (DevToMaxil.step_of_reqValid (h.waits hw0) hs).1
  cooldown := by
    have hc : ¬ s.bridge.canGrant (s.maxilIn i) = true :=
      Bool.not_eq_true _ ▸ SaConfig.not_captures_of_not_saReq hr
    rw [SaConfig.step_bridge, DevToMaxil.step_rdCooldown h.cooldown_le, if_neg hc, h.cooldown]
    cases k with
    | none => rfl
    | some j =>
      show c.maxil.pollGap - 1 - j - 1 = c.maxil.pollGap - 1 - (j + 1)
      omega

theorem idle_of_not_reqValid (h : InStep s k) (hv : s.bridge.reqValid = false) :
    s.bridge.state = .idle := by
  refine (h.idle ?_).1
  by_contra hw
  rw [h.waits (Bool.not_eq_false _ ▸ hw)] at hv
  cases hv

end InStep

/-! ### Every access is answered -/

namespace SaConfig

variable {c : SocParams} {s : SaConfig c} {i : SaConfigIn c} {k : Option ℕ}

/-- What is left of the access in flight. -/
def rank (s : SaConfig c) : ℕ :=
  if s.bus.busy = true then
    if s.saWaits = true then DevToMaxil.stage s.bridge.state + 1 else 1
  else 0

theorem rank_of_saWaits (h : s.saWaits = true) :
    s.rank = DevToMaxil.stage s.bridge.state + 1 := by
  rw [rank, if_pos (saWaits_iff.mp h).1, if_pos h]

theorem rank_eq_zero_iff : s.rank = 0 ↔ s.bus.busy = false := by
  unfold rank
  cases s.bus.busy
  · simp
  · by_cases hw : s.saWaits = true <;> simp [hw]

theorem not_saReq_of_busy (h : s.bus.busy = true) : s.saReq i = false := by
  by_contra hr
  rw [not_busy_of_saReq (Bool.not_eq_false _ ▸ hr)] at h
  cases h

/-- While the bus waits for the bridge, the slave lets the bridge go on. -/
theorem rank_step_of_saWaits (h : InStep s k) (hw : s.saWaits = true) :
    ((saConfig c).step s i).rank ≤ s.rank ∧
      (s.served i = true → ((saConfig c).step s i).rank < s.rank) := by
  obtain ⟨hb, hd, hp⟩ := saWaits_iff.mp hw
  rw [rank_of_saWaits hw]
  by_cases hs : s.bridge.state = .resp
  · have hzero : ((saConfig c).step s i).rank = 0 := by
      rw [rank_eq_zero_iff, step_bus, bus_step_of_saWaits hw]
      simp [DevToMaxil.dataRvalid, hs]
    omega
  · have hw' : ((saConfig c).step s i).saWaits = true := by
      rw [saWaits_iff, step_bus, bus_step_of_saWaits hw]
      exact ⟨by simp [DevToMaxil.dataRvalid, hs], rfl, hp⟩
    have hgo : s.served i = DevToMaxil.slaveGo (s.maxilIn i).toAxilSlave s.bridge.state := by
      simp [served, maxilIn, hb, hd, hp]
    have hstep := (DevToMaxil.step_of_reqValid (i := s.maxilIn i) (h.waits hw) hs).2
    rw [rank_of_saWaits hw', step_bridge, hgo]
    by_cases hg : DevToMaxil.slaveGo (s.maxilIn i).toAxilSlave s.bridge.state = true
    · rw [if_pos hg] at hstep
      exact ⟨by omega, fun _ => by omega⟩
    · rw [if_neg hg] at hstep
      exact ⟨by rw [hstep], fun hg' => absurd hg' hg⟩

/-- While the bus waits for another device or answers itself. -/
theorem rank_step_of_busy (hb : s.bus.busy = true) (hw : s.saWaits = false) :
    ((saConfig c).step s i).rank ≤ s.rank ∧
      (s.served i = true → ((saConfig c).step s i).rank < s.rank) := by
  have hw' := not_saWaits_next (i := i) (not_saReq_of_busy hb) hw
  have hone : s.rank = 1 := by simp [rank, hb, hw]
  rw [hone]
  refine ⟨?_, ?_⟩
  · rw [rank, hw']
    split <;> simp
  · intro hgo
    rw [Nat.lt_one_iff, rank_eq_zero_iff, step_bus, Bus.step_of_busy hb]
    rcases hd : s.bus.decodeErrPending with _ | _
    · have hp : s.bus.pendDevice ≠ c.saConfig := fun hp =>
        absurd (saWaits_iff.mpr ⟨hb, hd, hp⟩) (Bool.not_eq_true _ ▸ hw)
      simp only [served, hb, hd, if_neg hp] at hgo
      simpa [busIn, hp] using hgo
    · rfl

end SaConfig

section Run

variable {c : SocParams} {u : ℕ → SaConfigIn c}

theorem sinceRead_succ (n : ℕ) : sinceRead c u (n + 1) =
    if ((saConfig c).state u n).saReq (u n) = true then
      if (((saConfig c).state u n).saAccess (u n)).we = true then sinceRead c u n else some 0
    else (sinceRead c u n).map (· + 1) := rfl

/-- As long as no request is lost the bus and the bridge keep in step. -/
theorem inStep_run {t : ℕ} (h : (saConfig c).Obeys (fun s i => s.saReq i = true →
    s.captures i = true) u t) : InStep ((saConfig c).state u t) (sinceRead c u t) := by
  refine Machine.invariant_of_rule (P := fun t s => InStep s (sinceRead c u t)) h InStep.reset ?_
  intro n hcap hin
  rw [sinceRead_succ]
  by_cases hr : ((saConfig c).state u n).saReq (u n) = true
  · rw [if_pos hr]
    exact hin.step_request hr (hcap hr)
  · rw [if_neg hr]
    exact hin.step_quiet (Bool.not_eq_true _ ▸ hr)

/-- Reads that are spaced are captured. -/
theorem obeys_of_readsSpaced (h : ReadsSpaced c u) (t : ℕ) :
    (saConfig c).Obeys (fun s i => s.saReq i = true → s.captures i = true) u t := by
  induction t with
  | zero => exact fun n hn => absurd hn (Nat.not_lt_zero n)
  | succ t ih =>
    rw [Machine.obeys_succ]
    exact ⟨ih, fun hr => ((inStep_run ih).captures_iff hr).mpr (h t hr)⟩

/-- Where nothing is held up for ever the bus comes to the end of every access. -/
theorem bus_ends (hin : ∀ n, InStep ((saConfig c).state u n) (sinceRead c u n))
    (hserved : Served c u) (n : ℕ) :
    ∃ m, n ≤ m ∧ ((saConfig c).state u m).bus.busy = false ∧
      ∀ k, n ≤ k → k < m → ((saConfig c).state u k).bus.busy = true := by
  have hstep : ∀ m, ((saConfig c).state u m).rank ≠ 0 →
      ((saConfig c).state u (m + 1)).rank ≤ ((saConfig c).state u m).rank ∧
      (((saConfig c).state u m).served (u m) = true →
        ((saConfig c).state u (m + 1)).rank < ((saConfig c).state u m).rank) := by
    intro m hm
    have hb : ((saConfig c).state u m).bus.busy = true := by
      by_contra hb
      exact hm (SaConfig.rank_eq_zero_iff.mpr (Bool.not_eq_true _ ▸ hb))
    rcases hw : ((saConfig c).state u m).saWaits with _ | _
    · exact SaConfig.rank_step_of_busy hb hw
    · exact SaConfig.rank_step_of_saWaits (hin m) hw
  obtain ⟨m, hnm, hzero, hpos⟩ := @runs_down (fun m => ((saConfig c).state u m).rank)
    (fun m hm => (hstep m hm).1)
    (fun m => (hserved m).imp fun k hk => ⟨hk.1, fun hne => (hstep k hne).2 hk.2⟩) n
  refine ⟨m, hnm, SaConfig.rank_eq_zero_iff.mp hzero, fun k hk hkm => ?_⟩
  by_contra hb
  exact hpos k hk hkm (SaConfig.rank_eq_zero_iff.mpr (Bool.not_eq_true _ ▸ hb))

/-- Every granted access is answered once. -/
theorem answeredOnce_of_inStep (hin : ∀ n, InStep ((saConfig c).state u n) (sinceRead c u n))
    (hserved : Served c u) {n h : ℕ} (hg : granted c.bus (busTrace c u) n h = true) :
    AnsweredOnce c.bus (busTrace c u) n h := by
  obtain ⟨m, hnm, hend, hb⟩ := bus_ends hin hserved (n + 1)
  have hbusy := (granted_iff.mp hg).2.1
  simp only [saConfig_bus] at hend hb
  refine answeredOnce hg ?_ hb hend
  rcases Nat.eq_or_lt_of_le hnm with rfl | hlt
  · rw [hbusy] at hend
    cases hend
  · exact hlt

end Run

/-! ### Short poll gaps -/

/-- The bridge takes six cycles to answer a read, so that in a run without loss five
request-free cycles are between a read and the next request. -/
structure Rested {c : SocParams} (s : SaConfig c) (k : Option ℕ) : Prop extends InStep s k where
  answering : s.bridge.reqValid = true → ∀ j ∈ k, 4 ≤ j + DevToMaxil.stage s.bridge.state
  answered : s.bridge.reqValid = false → ∀ j ∈ k, 5 ≤ j

namespace Rested

variable {c : SocParams} {s : SaConfig c} {i : SaConfigIn c} {k : Option ℕ}

theorem step_request (h : Rested s k) (hr : s.saReq i = true) (hc : s.captures i = true) :
    Rested ((saConfig c).step s i) (if (s.saAccess i).we = true then k else some 0) where
  toInStep := h.toInStep.step_request hr hc
  answering _ j hj := by
    obtain ⟨hidle, hvalid⟩ := h.idle (SaConfig.not_saWaits_of_saReq hr)
    have hstep := (DevToMaxil.step_of_idle (i := s.maxilIn i) hidle hvalid).1
    rw [SaConfig.step_bridge, hstep]
    exact Nat.le_add_left 4 j
  answered hv := by
    obtain ⟨hidle, hvalid⟩ := h.idle (SaConfig.not_saWaits_of_saReq hr)
    have hstep := (DevToMaxil.step_of_idle (i := s.maxilIn i) hidle hvalid).2
    rw [SaConfig.step_bridge, hstep, show s.bridge.canGrant _ = true from hc] at hv
    cases hv

theorem step_quiet (h : Rested s k) (hr : s.saReq i = false) :
    Rested ((saConfig c).step s i) (k.map (· + 1)) where
  toInStep := h.toInStep.step_quiet hr
  answering hv j hj := by
    obtain ⟨j, hk, rfl⟩ := Option.map_eq_some_iff.mp hj
    rw [SaConfig.step_bridge] at hv ⊢
    rcases hv0 : s.bridge.reqValid with _ | _
    · have hidle := h.idle_of_not_reqValid hv0
      have hstep := (DevToMaxil.step_of_idle (i := s.maxilIn i) hidle hv0).2
      rw [hv, show s.bridge.canGrant _ = false from SaConfig.not_captures_of_not_saReq hr] at hstep
      cases hstep
    · have hj4 := h.answering hv0 j hk
      by_cases hs : s.bridge.state = .resp
      · rw [(DevToMaxil.step_of_resp hs).2] at hv
        cases hv
      · have hstep := (DevToMaxil.step_of_reqValid (i := s.maxilIn i) hv0 hs).2
        split at hstep
        · omega
        · rw [hstep]
          omega
  answered hv j hj := by
    obtain ⟨j, hk, rfl⟩ := Option.map_eq_some_iff.mp hj
    rw [SaConfig.step_bridge] at hv
    rcases hv0 : s.bridge.reqValid with _ | _
    · have hj5 := h.answered hv0 j hk
      omega
    · have hj4 := h.answering hv0 j hk
      by_cases hs : s.bridge.state = .resp
      · rw [hs] at hj4
        exact Nat.succ_le_succ hj4
      · rw [(DevToMaxil.step_of_reqValid hv0 hs).1] at hv
        cases hv

theorem captures (h : Rested s k) (hgap : c.maxil.pollGap ≤ 6) (hr : s.saReq i = true) :
    s.captures i = true := by
  refine (h.toInStep.captures_iff hr).mpr fun _ j hj => ?_
  have hidle := h.idle (SaConfig.not_saWaits_of_saReq hr)
  have hj5 := h.answered hidle.2 j hj
  omega

end Rested

/-- A poll gap of at most six cycles is kept by the bus itself. -/
theorem readsSpaced_of_pollGap_le {c : SocParams} (hgap : c.maxil.pollGap ≤ 6)
    (u : ℕ → SaConfigIn c) : ReadsSpaced c u := by
  have hrun : ∀ n, Rested ((saConfig c).state u n) (sinceRead c u n) := by
    intro n
    refine Machine.run_induction (P := fun n s => Rested s (sinceRead c u n)) ?_ ?_ n
    · exact ⟨InStep.reset, fun h => (by cases h), fun _ j hj => (by cases hj)⟩
    · intro n h
      rw [sinceRead_succ]
      by_cases hr : ((saConfig c).state u n).saReq (u n) = true
      · rw [if_pos hr]
        exact h.step_request hr (h.captures hgap hr)
      · rw [if_neg hr]
        exact h.step_quiet (Bool.not_eq_true _ ▸ hr)
  intro n hr hw
  exact ((hrun n).toInStep.captures_iff hr).mp ((hrun n).captures hgap hr) hw

/-! ### A lost request hangs the bus -/

namespace SaConfig

variable {c : SocParams} {s : SaConfig c}

/-- The bus waits for a bridge that has nothing to do. -/
def Hung (s : SaConfig c) : Prop :=
  s.saWaits = true ∧ s.bridge.state = .idle ∧ s.bridge.reqValid = false

theorem Hung.step (h : s.Hung) (i : SaConfigIn c) : ((saConfig c).step s i).Hung := by
  obtain ⟨hw, hidle, hvalid⟩ := h
  have hno : s.bridge.dataRvalid = false := by simp [DevToMaxil.dataRvalid, hidle]
  have hr : s.saReq i = false := not_saReq_of_busy (saWaits_iff.mp hw).1
  have hstep := DevToMaxil.step_of_idle (i := s.maxilIn i) hidle hvalid
  refine ⟨?_, hstep.1, hstep.2.trans (not_captures_of_not_saReq hr)⟩
  rw [saWaits_iff, step_bus, bus_step_of_saWaits hw, hno]
  exact ⟨rfl, rfl, (saWaits_iff.mp hw).2.2⟩

end SaConfig

/-- Once hung the bus never answers again. -/
theorem not_answered_of_hung {c : SocParams} {u : ℕ → SaConfigIn c} {n : ℕ}
    (h : ((saConfig c).state u n).Hung) {m : ℕ} (hm : n ≤ m) (host : ℕ) :
    answered c.bus (busTrace c u) m host = false := by
  have hrun : ∀ m, n ≤ m → ((saConfig c).state u m).Hung := by
    intro m hm
    induction m, hm using Nat.le_induction with
    | base => exact h
    | succ m hm ih => exact ih.step (u m)
  by_contra ha
  have hdone := (answered_iff.mp (Bool.not_eq_false _ ▸ ha)).2.1
  rw [← saConfig_bus, (SaConfig.saWaits_iff.mp (hrun (m + 1) (by omega)).1).1] at hdone
  cases hdone

/-! ### No request is lost -/

/-- **The bridge captures every request of the bus, and every granted access is
answered exactly once where nothing is held up for ever, if and only if no read
is requested within `POLL_GAP - 1` request-free cycles of the read before it.** -/
theorem captured_iff_readsSpaced (c : SocParams) (u : ℕ → SaConfigIn c) :
    ((∀ n, ((saConfig c).state u n).saReq (u n) = true →
        ((saConfig c).state u n).captures (u n) = true) ∧
      (Served c u → ∀ n h, granted c.bus (busTrace c u) n h = true →
        AnsweredOnce c.bus (busTrace c u) n h)) ↔
    ReadsSpaced c u := by
  refine ⟨?_, ?_⟩
  · intro ⟨hcap, _⟩ n hr
    exact ((inStep_run fun m _ => hcap m).captures_iff hr).mp (hcap n hr)
  · intro h
    have hin := fun n => inStep_run (obeys_of_readsSpaced h n)
    exact ⟨fun n => obeys_of_readsSpaced h (n + 1) n (Nat.lt_succ_self n),
      fun hserved n _ hg => answeredOnce_of_inStep hin hserved hg⟩

/-- A system with the bridge as its only device. -/
def soloSoc (pollGap : ℕ) : SocParams := ⟨1, 1, fun _ => 0, fun _ => 0, 0, ⟨32, 32, pollGap⟩⟩

/-- The host reads the bridge as often as it can, and the slave is always ready. -/
def eagerReads (pollGap : ℕ) (_ : ℕ) : SaConfigIn (soloSoc pollGap) where
  host _ := ⟨⟨0, false, 0, 0⟩, true⟩
  device _ := ⟨false, 0, false⟩
  slave := ⟨true, true, 0, true, true, 0, 0, true⟩

/-- With the default `POLL_GAP` of eight the second read, six cycles after the
first, is granted and lost, and the bus never answers again. -/
theorem eagerReads_lost :
    granted (soloSoc 8).bus (busTrace (soloSoc 8) (eagerReads 8)) 6 0 = true ∧
    ((saConfig (soloSoc 8)).state (eagerReads 8) 6).saReq (eagerReads 8 6) = true ∧
    ((saConfig (soloSoc 8)).state (eagerReads 8) 6).captures (eagerReads 8 6) = false ∧
    ∀ m, 6 < m → ∀ h,
      answered (soloSoc 8).bus (busTrace (soloSoc 8) (eagerReads 8)) m h = false := by
  have hhung : ((saConfig (soloSoc 8)).state (eagerReads 8) 7).Hung := by
    unfold SaConfig.Hung
    decide
  exact ⟨by decide, by decide, by decide, fun m hm h => not_answered_of_hung hhung hm h⟩

/-- The bridge is the device of every access. -/
theorem soloSoc_pendDevice (g t : ℕ) (u : ℕ → SaConfigIn (soloSoc g)) :
    ((saConfig (soloSoc g)).state u t).bus.pendDevice = (soloSoc g).saConfig := by
  refine (saConfig (soloSoc g)).invariant (P := fun s => s.bus.pendDevice = 0) rfl ?_ t
  intro s i h
  have hsel : Bus.deviceSelReq (s.busIn i) = 0 := by
    simp [Bus.deviceSelReq, Bus.deviceSel, soloSoc]
  rw [SaConfig.step_bus, Bus.step]
  simp only [hsel, h, ite_self]

/-- A slave that is always ready holds nothing up. -/
theorem eagerReads_served (g : ℕ) : Served (soloSoc g) (eagerReads g) := by
  intro n
  refine ⟨n, le_rfl, ?_⟩
  have hgo : ∀ s, DevToMaxil.slaveGo (eagerReads g n).slave s = true := by
    intro s
    cases s <;> rfl
  simp [SaConfig.served, soloSoc_pendDevice, hgo]

/-- With a `POLL_GAP` of six the second read is answered like the first. -/
theorem eagerReads_answered :
    granted (soloSoc 6).bus (busTrace (soloSoc 6) (eagerReads 6)) 6 0 = true ∧
    AnsweredOnce (soloSoc 6).bus (busTrace (soloSoc 6) (eagerReads 6)) 6 0 := by
  have hgranted : granted (soloSoc 6).bus (busTrace (soloSoc 6) (eagerReads 6)) 6 0 = true := by
    decide
  have hspaced := readsSpaced_of_pollGap_le le_rfl (eagerReads 6)
  exact ⟨hgranted, ((captured_iff_readsSpaced _ _).mpr hspaced).2 (eagerReads_served 6) 6 0
    hgranted⟩

end AxisSystolic
