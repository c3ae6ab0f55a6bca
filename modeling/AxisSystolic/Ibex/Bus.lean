import AxisSystolic.Sync.Machine
import Mathlib.Data.BitVec

/-!
# The bus of the Ibex system (`bus.sv`)

The bus has one access in flight.  It grants an access when it is idle, pulses
the request of the device that decodes the address for that one cycle, and waits
for the device's response; an address that no device decodes is answered with an
error in the next cycle.

Ports are indexed by `ℕ` and are read below the number of hosts or devices.
-/

namespace AxisSystolic

open Sync

/-- The parameters of `bus` and its address map. -/
structure BusParams where
  nrDevices : ℕ
  nrHosts : ℕ
  dataWidth : ℕ
  addressWidth : ℕ
  cfgDeviceAddrBase : ℕ → BitVec addressWidth
  cfgDeviceAddrMask : ℕ → BitVec addressWidth

/-- What is asked of a device. -/
structure BusAccess (p : BusParams) where
  addr : BitVec p.addressWidth
  we : Bool
  be : BitVec (p.dataWidth / 8)
  wdata : BitVec p.dataWidth

/-- The signals of a host. -/
structure HostPort (p : BusParams) extends BusAccess p where
  req : Bool

/-- A response, of a device or to a host. -/
structure BusResp (p : BusParams) where
  rvalid : Bool
  rdata : BitVec p.dataWidth
  err : Bool

structure BusIn (p : BusParams) where
  host : ℕ → HostPort p
  device : ℕ → BusResp p

/-- The registers of `bus`. -/
structure Bus (p : BusParams) where
  busy : Bool
  pendHost : ℕ
  pendDevice : ℕ
  decodeErrPending : Bool

namespace Bus

variable {p : BusParams}

/-- `rst_ni` low. -/
def reset (p : BusParams) : Bus p := ⟨false, 0, 0, false⟩

variable (s : Bus p) (i : BusIn p)

/-! ### Selection -/

/-- The selected host: the loop runs downwards, so the lowest index that
requests is assigned last. -/
def hostSel : Option ℕ :=
  (List.range p.nrHosts).reverse.foldl (fun sel h => if (i.host h).req then some h else sel) none

def hostSelReq : ℕ := (hostSel i).getD 0

/-- The device that decodes the address of the selected host. -/
def deviceSel : Option ℕ :=
  (List.range p.nrDevices).foldl (fun sel d =>
    if (i.host (hostSelReq i)).addr &&& p.cfgDeviceAddrMask d = p.cfgDeviceAddrBase d
    then some d else sel) none

def deviceSelReq : ℕ := (deviceSel i).getD 0

def issueReq : Bool :=
  !s.busy && (hostSel i).isSome && (i.host (hostSelReq i)).req && (deviceSel i).isSome

def issueDecErr : Bool :=
  !s.busy && (hostSel i).isSome && (i.host (hostSelReq i)).req && !(deviceSel i).isSome

/-! ### Ports -/

def deviceReq (d : ℕ) : Bool := s.issueReq i && d == deviceSelReq i

/-- What a device sees of the access, zeros but in the cycle of its request. -/
def deviceAccess (d : ℕ) : BusAccess p :=
  if s.deviceReq i d then (i.host (hostSelReq i)).toBusAccess else ⟨0, false, 0, 0⟩

def hostGnt (h : ℕ) : Bool := (s.issueReq i || s.issueDecErr i) && h == hostSelReq i

def hostResp (h : ℕ) : BusResp p :=
  if s.busy && h == s.pendHost then
    if s.decodeErrPending then ⟨true, 0, true⟩ else i.device s.pendDevice
  else ⟨false, 0, false⟩

/-- A clock edge. -/
def step : Bus p where
  busy :=
    if s.busy && (s.decodeErrPending || (i.device s.pendDevice).rvalid) then false
    else if s.issueReq i || s.issueDecErr i then true
    else s.busy
  pendHost := if s.issueReq i || s.issueDecErr i then hostSelReq i else s.pendHost
  pendDevice := if s.issueReq i then deviceSelReq i else s.pendDevice
  decodeErrPending :=
    if s.busy && s.decodeErrPending then false
    else if s.issueDecErr i then true
    else s.decodeErrPending

/-! ### What a clock edge does -/

section Step

variable {s i}

theorem step_of_busy (hb : s.busy = true) : s.step i =
    { s with
      busy := !(s.decodeErrPending || (i.device s.pendDevice).rvalid)
      decodeErrPending := false } := by
  have h1 : s.issueReq i = false := by simp [issueReq, hb]
  have h2 : s.issueDecErr i = false := by simp [issueDecErr, hb]
  cases hd : s.decodeErrPending <;> simp [step, h1, h2, hb, hd]

theorem issueDecErr_of_issueReq (h : s.issueReq i = true) : s.issueDecErr i = false := by
  simp only [issueReq, Bool.and_eq_true] at h
  simp [issueDecErr, h.2]

theorem step_of_issueReq (h : s.issueReq i = true) : s.step i =
    { s with busy := true, pendHost := hostSelReq i, pendDevice := deviceSelReq i } := by
  have hb : s.busy = false := by
    simp only [issueReq, Bool.and_eq_true, Bool.not_eq_true'] at h
    exact h.1.1.1
  simp [step, h, issueDecErr_of_issueReq h, hb]

theorem step_of_issueDecErr (h : s.issueDecErr i = true) : s.step i =
    { s with busy := true, pendHost := hostSelReq i, decodeErrPending := true } := by
  have hb : s.busy = false := by
    simp only [issueDecErr, Bool.and_eq_true, Bool.not_eq_true'] at h
    exact h.1.1.1
  have h1 : s.issueReq i = false := by
    by_contra h1
    rw [issueDecErr_of_issueReq (Bool.not_eq_false _ ▸ h1)] at h
    cases h
  simp [step, h, h1, hb]

theorem step_of_quiet (hb : s.busy = false) (h1 : s.issueReq i = false)
    (h2 : s.issueDecErr i = false) : s.step i = s := by
  simp only [step, hb, h1, h2, Bool.false_and, Bool.or_self, Bool.false_eq_true, if_false]
  rw [← hb]

theorem step_busy_of_idle (hb : s.busy = false) :
    (s.step i).busy = (s.issueReq i || s.issueDecErr i) := by
  rcases h1 : s.issueReq i with _ | _
  · rcases h2 : s.issueDecErr i with _ | _
    · rw [step_of_quiet hb h1 h2]
      exact hb
    · rw [step_of_issueDecErr h2]
      rfl
  · rw [step_of_issueReq h1]
    rfl

/-- A host is granted exactly when the bus becomes busy with its access. -/
theorem hostGnt_iff {h : ℕ} : s.hostGnt i h = true ↔
    s.busy = false ∧ (s.step i).busy = true ∧ h = (s.step i).pendHost := by
  unfold hostGnt
  rcases hb : s.busy with _ | _
  · rw [step_busy_of_idle hb]
    rcases h1 : s.issueReq i with _ | _
    · rcases h2 : s.issueDecErr i with _ | _
      · simp
      · simp [step_of_issueDecErr h2]
    · simp [step_of_issueReq h1]
  · simp [issueReq, issueDecErr, hb]

/-- A host gets a response exactly when the bus leaves off its access. -/
theorem hostResp_rvalid_iff {h : ℕ} : (s.hostResp i h).rvalid = true ↔
    s.busy = true ∧ (s.step i).busy = false ∧ h = s.pendHost := by
  unfold hostResp
  rcases hb : s.busy with _ | _
  · simp
  · rw [step_of_busy hb]
    by_cases hh : h = s.pendHost
    · cases hd : s.decodeErrPending <;> simp [hh]
    · simp [hh]

theorem step_pendHost_of_busy (hb : s.busy = true) : (s.step i).pendHost = s.pendHost := by
  rw [step_of_busy hb]

end Step

end Bus

/-- The clocked machine of `bus`. -/
def bus (p : BusParams) : Machine (Bus p) (BusIn p) where
  reset := Bus.reset p
  step := Bus.step

/-! ### Every access is answered once -/

section Answers

variable (p : BusParams) (u : ℕ → BusIn p)

def granted (n h : ℕ) : Bool := ((bus p).state u n).hostGnt (u n) h

def answered (n h : ℕ) : Bool := (((bus p).state u n).hostResp (u n) h).rvalid

/-- No host is granted from cycle `n` on and before cycle `k`. -/
def NoGrant (n k : ℕ) : Prop := ∀ j, n ≤ j → j < k → ∀ h, granted p u j h = false

/-- Before any other grant, what is granted to host `h` in cycle `n` is answered
in exactly one cycle, and to no other host. -/
def AnsweredOnce (n h : ℕ) : Prop :=
  ∃ m, n < m ∧ NoGrant p u (n + 1) (m + 1) ∧ answered p u m h = true ∧
    ∀ k h', n < k → NoGrant p u (n + 1) k → answered p u k h' = true → k = m ∧ h' = h

variable {p u}

theorem granted_iff {n h : ℕ} : granted p u n h = true ↔ ((bus p).state u n).busy = false ∧
    ((bus p).state u (n + 1)).busy = true ∧ h = ((bus p).state u (n + 1)).pendHost :=
  Bus.hostGnt_iff

theorem answered_iff {n h : ℕ} : answered p u n h = true ↔ ((bus p).state u n).busy = true ∧
    ((bus p).state u (n + 1)).busy = false ∧ h = ((bus p).state u n).pendHost :=
  Bus.hostResp_rvalid_iff

/-- Without a grant an idle bus stays idle. -/
theorem NoGrant.idle {n k : ℕ} (hg : NoGrant p u n k) (hb : ((bus p).state u n).busy = false)
    (hk : n ≤ k) : ((bus p).state u k).busy = false := by
  induction k, hk using Nat.le_induction with
  | base => exact hb
  | succ k hk ih =>
    have hidle := ih fun j hj hjk => hg j hj (by omega)
    by_contra hbusy
    have hgr := granted_iff.mpr ⟨hidle, Bool.not_eq_false _ ▸ hbusy, rfl⟩
    rw [hg k hk (by omega)] at hgr
    cases hgr

/-- A busy bus answers the host it has granted. -/
theorem busy_pendHost {n m : ℕ} (hb : ∀ k, n ≤ k → k < m → ((bus p).state u k).busy = true)
    (hm : n ≤ m) : ((bus p).state u m).pendHost = ((bus p).state u n).pendHost := by
  induction m, hm using Nat.le_induction with
  | base => rfl
  | succ m hm ih =>
    rw [← ih fun k hk hkm => hb k hk (by omega)]
    exact Bus.step_pendHost_of_busy (hb m hm (by omega))

/-- An access that ends has been answered exactly once. -/
theorem answeredOnce {n h m : ℕ} (hg : granted p u n h = true) (hnm : n + 1 < m)
    (hb : ∀ k, n + 1 ≤ k → k < m → ((bus p).state u k).busy = true)
    (hend : ((bus p).state u m).busy = false) : AnsweredOnce p u n h := by
  obtain ⟨m, rfl⟩ : ∃ j, m = j + 1 := ⟨m - 1, by omega⟩
  have hhost : ∀ k, n + 1 ≤ k → k ≤ m → ((bus p).state u k).pendHost = h := by
    intro k hk hkm
    rw [busy_pendHost (fun j hj hjk => hb j hj (by omega)) hk]
    exact (granted_iff.mp hg).2.2.symm
  have hno : NoGrant p u (n + 1) (m + 1) := by
    intro j hj hjm h'
    by_contra hgr
    have hidle := (granted_iff.mp (Bool.not_eq_false _ ▸ hgr)).1
    rw [hb j hj hjm] at hidle
    cases hidle
  refine ⟨m, by omega, hno, ?_, ?_⟩
  · exact answered_iff.mpr ⟨hb m (by omega) (by omega), hend, (hhost m (by omega) le_rfl).symm⟩
  · intro k h' hk hnog ha
    obtain ⟨hbusy, hdone, hh⟩ := answered_iff.mp ha
    rcases Nat.lt_trichotomy k m with hlt | rfl | hgt
    · rw [hb (k + 1) (by omega) (by omega)] at hdone
      cases hdone
    · exact ⟨rfl, hh.trans (hhost k hk le_rfl)⟩
    · have hidle : ((bus p).state u k).busy = false :=
        NoGrant.idle (fun j hj hjk => hnog j (by omega) hjk) hend hgt
      rw [hidle] at hbusy
      cases hbusy

end Answers

end AxisSystolic
