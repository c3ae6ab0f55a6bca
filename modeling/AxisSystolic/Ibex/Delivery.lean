import AxisSystolic.Ibex.Bus
import Mathlib.Data.List.Range

/-!
# What the bus delivers (`bus.sv`)

The host and the device of an access are selected in the cycle of the grant, and
the response goes by what was latched then.  An access is in flight from its
grant to its answer (`InFlight`): the bus is busy exactly then, with the latched
host that of the grant (`inFlight_of_busy`, `InFlight.busy`).

`bus_delivers` only needs that a device that is asked responds in some later
cycle (`DevicesRespond`): a host may also take its request back, and a device may
respond more often.
-/

namespace AxisSystolic

open Sync

/-! ### Selection -/

/-- Device `d` decodes the address `a`: it is the last one that matches. -/
def Decodes (p : BusParams) (a : BitVec p.addressWidth) (d : ℕ) : Prop :=
  d < p.nrDevices ∧ a &&& p.cfgDeviceAddrMask d = p.cfgDeviceAddrBase d ∧
    ∀ e < p.nrDevices, a &&& p.cfgDeviceAddrMask e = p.cfgDeviceAddrBase e → e ≤ d

/-- A loop that overwrites its variable at each match leaves the last one. -/
theorem foldl_range_eq_some_iff {q : ℕ → Prop} [DecidablePred q] {n d : ℕ} :
    (List.range n).foldl (fun sel e => if q e then some e else sel) none = some d ↔
      d < n ∧ q d ∧ ∀ e < n, q e → e ≤ d := by
  induction n with
  | zero => simp
  | succ n ih =>
    rw [List.range_succ, List.foldl_append]
    by_cases hq : q n
    · constructor
      · intro h
        obtain rfl : n = d := by simpa [hq] using h
        exact ⟨Nat.lt_succ_self n, hq, fun e he _ => Nat.le_of_lt_succ he⟩
      · rintro ⟨hd, _, hmax⟩
        have := hmax n (Nat.lt_succ_self n) hq
        obtain rfl : n = d := by omega
        simp [hq]
    · have hskip : List.foldl (fun sel e => if q e then some e else sel)
          (List.foldl (fun sel e => if q e then some e else sel) none (List.range n)) [n]
          = List.foldl (fun sel e => if q e then some e else sel) none (List.range n) := by
        simp [hq]
      rw [hskip, ih]
      constructor
      · rintro ⟨hd, hqd, hmax⟩
        refine ⟨Nat.lt_succ_of_lt hd, hqd, fun e he hqe => ?_⟩
        rcases Nat.eq_or_lt_of_le (Nat.le_of_lt_succ he) with rfl | hlt
        · exact absurd hqe hq
        · exact hmax e hlt hqe
      · rintro ⟨hd, hqd, hmax⟩
        refine ⟨?_, hqd, fun e he hqe => hmax e (Nat.lt_succ_of_lt he) hqe⟩
        rcases Nat.eq_or_lt_of_le (Nat.le_of_lt_succ hd) with rfl | hlt
        · exact absurd hqd hq
        · exact hlt

/-- It leaves a match. -/
theorem foldl_eq_some {q : ℕ → Prop} [DecidablePred q] {l : List ℕ} {init : Option ℕ} {d : ℕ}
    (h : l.foldl (fun sel e => if q e then some e else sel) init = some d) :
    (d ∈ l ∧ q d) ∨ init = some d := by
  induction l generalizing init with
  | nil => exact Or.inr h
  | cons a l ih =>
    rcases ih h with ⟨hd, hq⟩ | hinit
    · exact Or.inl ⟨List.mem_cons_of_mem a hd, hq⟩
    · by_cases hq : q a
      · obtain rfl : a = d := by simpa [hq] using hinit
        exact Or.inl ⟨List.mem_cons_self, hq⟩
      · exact Or.inr (by simpa [hq] using hinit)

namespace Bus

variable {p : BusParams} {s : Bus p} {i : BusIn p} {h d : ℕ}

theorem hostSel_eq_some (hs : hostSel i = some h) : h < p.nrHosts ∧ (i.host h).req = true := by
  rcases foldl_eq_some (q := fun h => (i.host h).req = true) hs with ⟨hmem, hreq⟩ | hnone
  · exact ⟨List.mem_range.mp (List.mem_reverse.mp hmem), hreq⟩
  · cases hnone

theorem deviceSel_eq_some_iff :
    deviceSel i = some d ↔ Decodes p (i.host (hostSelReq i)).addr d :=
  foldl_range_eq_some_iff

theorem hostGnt_eq (hg : s.hostGnt i h = true) :
    (s.issueReq i = true ∨ s.issueDecErr i = true) ∧ h = hostSelReq i := by
  simpa [hostGnt] using hg

/-- A host that is granted requests. -/
theorem hostGnt_req (hg : s.hostGnt i h = true) : h < p.nrHosts ∧ (i.host h).req = true := by
  obtain ⟨hissue, rfl⟩ := hostGnt_eq hg
  have hsome : (hostSel i).isSome = true := by
    rcases hissue with hr | he
    · simp only [issueReq, Bool.and_eq_true] at hr
      exact hr.1.1.2
    · simp only [issueDecErr, Bool.and_eq_true] at he
      exact he.1.1.2
  obtain ⟨h, hs⟩ := Option.isSome_iff_exists.mp hsome
  rw [hostSelReq, hs]
  exact hostSel_eq_some hs

theorem issueReq_of_decodes (hg : s.hostGnt i h = true) (hd : Decodes p (i.host h).addr d) :
    s.issueReq i = true ∧ deviceSelReq i = d := by
  obtain ⟨hissue, rfl⟩ := hostGnt_eq hg
  have hsel := deviceSel_eq_some_iff.mpr hd
  refine ⟨?_, ?_⟩
  · rcases hissue with hr | he
    · exact hr
    · simp [issueDecErr, hsel] at he
  · rw [deviceSelReq, hsel]
    rfl

theorem issueDecErr_of_not_decodes (hg : s.hostGnt i h = true)
    (hd : ∀ d, ¬ Decodes p (i.host h).addr d) : s.issueDecErr i = true := by
  obtain ⟨hissue, rfl⟩ := hostGnt_eq hg
  rcases hissue with hr | he
  · simp only [issueReq, Bool.and_eq_true] at hr
    obtain ⟨d, hsel⟩ := Option.isSome_iff_exists.mp hr.2
    exact absurd (deviceSel_eq_some_iff.mp hsel) (hd d)
  · exact he

/-- A device is requested exactly when an access that it decodes is granted. -/
theorem deviceReq_iff : s.deviceReq i d = true ↔
    ∃ h, s.hostGnt i h = true ∧ Decodes p (i.host h).addr d := by
  constructor
  · intro hr
    have hissue : s.issueReq i = true ∧ d = deviceSelReq i := by simpa [deviceReq] using hr
    obtain ⟨hissue, rfl⟩ := hissue
    refine ⟨hostSelReq i, by simp [hostGnt, hissue], ?_⟩
    simp only [issueReq, Bool.and_eq_true] at hissue
    obtain ⟨d, hsel⟩ := Option.isSome_iff_exists.mp hissue.2
    rw [deviceSelReq, hsel]
    exact deviceSel_eq_some_iff.mp hsel
  · rintro ⟨h, hg, hd⟩
    obtain ⟨hissue, hsel⟩ := issueReq_of_decodes hg hd
    simp [deviceReq, hissue, hsel]

theorem deviceAccess_of_hostGnt (hg : s.hostGnt i h = true) (hr : s.deviceReq i d = true) :
    s.deviceAccess i d = (i.host h).toBusAccess := by
  rw [deviceAccess, if_pos hr, (hostGnt_eq hg).2]

end Bus

/-! ### Accesses in flight -/

section Delivery

variable (p : BusParams) (u : ℕ → BusIn p)

/-- Device `d` sees a request in cycle `n`. -/
def requested (n d : ℕ) : Bool := ((bus p).state u n).deviceReq (u n) d

/-- What was granted to host `h` in cycle `n` has not been answered before cycle `t`. -/
def InFlight (t n h : ℕ) : Prop :=
  n < t ∧ granted p u n h = true ∧ ∀ k, n < k → k < t → answered p u k h = false

/-- No response of device `d` after cycle `n` and before cycle `m`. -/
def Silent (n m d : ℕ) : Prop := ∀ k, n < k → k < m → ((u k).device d).rvalid = false

/-- A device that sees a request responds in a later cycle. -/
def DevicesRespond : Prop :=
  ∀ n, ∀ d < p.nrDevices, requested p u n d = true → ∃ m, n < m ∧ ((u m).device d).rvalid = true

variable {p u} {n m t h d : ℕ}

theorem bus_step (s : Bus p) (i : BusIn p) : (bus p).step s i = s.step i := rfl

theorem InFlight.busy (hf : InFlight p u t n h) :
    ((bus p).state u t).busy = true ∧ ((bus p).state u t).pendHost = h := by
  obtain ⟨hnt, hg, hno⟩ := hf
  induction t, hnt using Nat.le_induction with
  | base => exact ⟨(granted_iff.mp hg).2.1, (granted_iff.mp hg).2.2.symm⟩
  | succ t hnt ih =>
    obtain ⟨hbusy, hhost⟩ := ih fun k hk hkt => hno k hk (by omega)
    refine ⟨?_, ?_⟩
    · by_contra hidle
      have ha := answered_iff.mpr ⟨hbusy, Bool.eq_false_of_not_eq_true hidle, hhost.symm⟩
      rw [hno t (by omega) (Nat.lt_succ_self t)] at ha
      cases ha
    · rw [← hhost]
      exact Bus.step_pendHost_of_busy hbusy

/-- There is one access in flight at most. -/
theorem InFlight.unique {n' h' : ℕ} (hf : InFlight p u t n h) (hf' : InFlight p u t n' h') :
    n = n' ∧ h = h' := by
  -- the bus would be busy in the cycle of the later grant
  have hle : ∀ {a b ha hb : ℕ}, InFlight p u t a ha → InFlight p u t b hb → b ≤ a := by
    intro a b ha hb fa fb
    by_contra hab
    have hbusy := (InFlight.busy (t := b) ⟨by omega, fa.2.1, fun k hk hkb =>
      fa.2.2 k hk (by have := fb.1; omega)⟩).1
    rw [(granted_iff.mp fb.2.1).1] at hbusy
    cases hbusy
  exact ⟨le_antisymm (hle hf' hf) (hle hf hf'), hf.busy.2.symm.trans hf'.busy.2⟩

theorem inFlight_of_busy (hb : ((bus p).state u t).busy = true) :
    ∃ n, InFlight p u t n ((bus p).state u t).pendHost := by
  induction t with
  | zero => cases hb
  | succ t ih =>
    rcases hbusy : ((bus p).state u t).busy with _ | _
    · refine ⟨t, Nat.lt_succ_self t, granted_iff.mpr ⟨hbusy, hb, rfl⟩, ?_⟩
      intro k hk hkt
      omega
    · obtain ⟨n, hnt, hg, hno⟩ := ih hbusy
      have hhost : ((bus p).state u (t + 1)).pendHost = ((bus p).state u t).pendHost :=
        Bus.step_pendHost_of_busy hbusy
      refine ⟨n, by omega, hhost ▸ hg, ?_⟩
      intro k hk hkt
      rw [hhost]
      rcases Nat.eq_or_lt_of_le (Nat.le_of_lt_succ hkt) with rfl | hlt
      · by_contra ha
        have hidle := (answered_iff.mp (Bool.not_eq_false _ ▸ ha)).2.1
        rw [hb] at hidle
        cases hidle
      · exact hno k hk hlt

/-- An idle bus has no decode error to report. -/
theorem decodeErrPending_of_idle (hb : ((bus p).state u t).busy = false) :
    ((bus p).state u t).decodeErrPending = false := by
  refine (bus p).invariant (P := fun s => s.busy = false → s.decodeErrPending = false) (u := u)
    (fun _ => rfl) ?_ t hb
  intro s i hs hidle
  rcases hbusy : s.busy with _ | _
  · rcases h1 : s.issueReq i with _ | _
    · rcases h2 : s.issueDecErr i with _ | _
      · exact (congrArg Bus.decodeErrPending (Bus.step_of_quiet hbusy h1 h2)).trans (hs hbusy)
      · rw [bus_step, Bus.step_of_issueDecErr h2] at hidle
        cases hidle
    · rw [bus_step, Bus.step_of_issueReq h1] at hidle
      cases hidle
  · exact congrArg Bus.decodeErrPending (Bus.step_of_busy hbusy)

/-! ### The response -/

/-- The bus waits for the device that decodes the address. -/
theorem waits (hg : granted p u n h = true) (hd : Decodes p ((u n).host h).addr d)
    (hsilent : Silent p u n m d) (hm : n < m) : (bus p).state u m = ⟨true, h, d, false⟩ := by
  induction m, hm using Nat.le_induction with
  | base =>
    obtain ⟨hissue, hsel⟩ := Bus.issueReq_of_decodes hg hd
    rw [Machine.state_succ, bus_step, Bus.step_of_issueReq hissue, hsel,
      ← (Bus.hostGnt_eq hg).2, decodeErrPending_of_idle (granted_iff.mp hg).1]
  | succ m hm ih =>
    have hstate := ih fun k hk hkm => hsilent k hk (by omega)
    rw [Machine.state_succ, hstate, bus_step, Bus.step_of_busy rfl]
    show (⟨!(false || ((u m).device d).rvalid), h, d, false⟩ : Bus p) = _
    rw [hsilent m (by omega) (Nat.lt_succ_self m)]
    rfl

/-- The first response of the device ends the access. -/
theorem ends_of_rvalid (hg : granted p u n h = true) (hd : Decodes p ((u n).host h).addr d)
    (hsilent : Silent p u n m d) (hm : n < m) (hr : ((u m).device d).rvalid = true) :
    ((bus p).state u (m + 1)).busy = false := by
  rw [Machine.state_succ, waits hg hd hsilent hm,
    bus_step, Bus.step_of_busy rfl]
  show (!(false || ((u m).device d).rvalid)) = false
  rw [hr]
  rfl

/-- A response before cycle `m`, and before the next grant, would have ended it. -/
theorem silent_of_answered (hg : granted p u n h = true) (hd : Decodes p ((u n).host h).addr d)
    (hno : NoGrant p u (n + 1) m) (ha : answered p u m h = true) : Silent p u n m d := by
  intro k hk hkm
  induction k using Nat.strong_induction_on with
  | _ k ih =>
    by_contra hr
    have hsilent : Silent p u n k d := fun j hj hjk => ih j hjk hj (by omega)
    have hend := ends_of_rvalid hg hd hsilent hk (Bool.not_eq_false _ ▸ hr)
    have hidle : ((bus p).state u m).busy = false :=
      NoGrant.idle (fun j hj hjm => hno j (by omega) hjm) hend hkm
    rw [(answered_iff.mp ha).1] at hidle
    cases hidle

/-- The decode error is reported in the next cycle. -/
theorem state_of_decodeErr (hg : granted p u n h = true)
    (hd : ∀ d, ¬ Decodes p ((u n).host h).addr d) :
    ((bus p).state u (n + 1)).busy = true ∧ ((bus p).state u (n + 1)).pendHost = h ∧
      ((bus p).state u (n + 1)).decodeErrPending = true ∧
      ((bus p).state u (n + 1 + 1)).busy = false := by
  have hstate : (bus p).state u (n + 1) = _ :=
    Bus.step_of_issueDecErr (Bus.issueDecErr_of_not_decodes hg hd)
  refine ⟨?_, ?_, ?_, ?_⟩
  · rw [hstate]
  · rw [hstate, (Bus.hostGnt_eq hg).2]
  · rw [hstate]
  · rw [Machine.state_succ (bus p) u (n + 1), hstate,
      bus_step, Bus.step_of_busy rfl]
    rfl

/-- A device that responds lets its access be answered. -/
theorem answeredOnce_of_decodes (hdev : DevicesRespond p u) (hg : granted p u n h = true)
    (hd : Decodes p ((u n).host h).addr d) : AnsweredOnce p u n h := by
  have hreq : requested p u n d = true := Bus.deviceReq_iff.mpr ⟨h, hg, hd⟩
  have hex := hdev n d hd.1 hreq
  have hsilent : ∀ k, k ≤ Nat.find hex → Silent p u n k d := by
    intro k hk j hj hjk
    by_contra hr
    exact Nat.find_min hex (Nat.lt_of_lt_of_le hjk hk) ⟨hj, Bool.not_eq_false _ ▸ hr⟩
  refine answeredOnce (m := Nat.find hex + 1) hg (Nat.succ_lt_succ (Nat.find_spec hex).1) ?_ ?_
  · intro k hk hkm
    rw [waits hg hd (hsilent k (Nat.le_of_lt_succ hkm)) hk]
  · exact ends_of_rvalid hg hd (hsilent _ le_rfl) (Nat.find_spec hex).1 (Nat.find_spec hex).2

theorem answeredOnce_of_decodeErr (hg : granted p u n h = true)
    (hd : ∀ d, ¬ Decodes p ((u n).host h).addr d) : AnsweredOnce p u n h := by
  obtain ⟨hbusy, _, _, hidle⟩ := state_of_decodeErr hg hd
  refine answeredOnce (m := n + 1 + 1) hg (Nat.lt_succ_self _) ?_ hidle
  intro k hk hkm
  obtain rfl : k = n + 1 := by omega
  exact hbusy

/-- What the bus does with the access that it grants to host `h` in cycle `n`. -/
structure Delivered (p : BusParams) (u : ℕ → BusIn p) (n h : ℕ) : Prop where
  host : h < p.nrHosts ∧ ((u n).host h).req = true
  alone : ∀ h', granted p u n h' = true → h' = h
  once : AnsweredOnce p u n h
  pulse : ∀ d, requested p u n d = true ↔ Decodes p ((u n).host h).addr d
  access : ∀ d, requested p u n d = true →
    ((bus p).state u n).deviceAccess (u n) d = ((u n).host h).toBusAccess
  response : ∀ d, Decodes p ((u n).host h).addr d → ∀ m, n < m → NoGrant p u (n + 1) m →
    answered p u m h = true → Silent p u n m d ∧ ((u m).device d).rvalid = true ∧
      ((bus p).state u m).hostResp (u m) h = (u m).device d
  error : (∀ d, ¬ Decodes p ((u n).host h).addr d) →
    ((bus p).state u (n + 1)).hostResp (u (n + 1)) h = ⟨true, 0, true⟩

theorem delivered_of_granted (hdev : DevicesRespond p u) (hg : granted p u n h = true) :
    Delivered p u n h where
  host := Bus.hostGnt_req hg
  alone h' hg' := (Bus.hostGnt_eq hg').2.trans (Bus.hostGnt_eq hg).2.symm
  once := by
    by_cases hd : ∃ d, Decodes p ((u n).host h).addr d
    · obtain ⟨d, hd⟩ := hd
      exact answeredOnce_of_decodes hdev hg hd
    · exact answeredOnce_of_decodeErr hg fun d hd' => hd ⟨d, hd'⟩
  pulse d := by
    refine ⟨?_, fun hd => Bus.deviceReq_iff.mpr ⟨h, hg, hd⟩⟩
    intro hr
    obtain ⟨h', hg', hd⟩ := Bus.deviceReq_iff.mp hr
    rwa [(Bus.hostGnt_eq hg').2.trans (Bus.hostGnt_eq hg).2.symm] at hd
  access d hr := Bus.deviceAccess_of_hostGnt hg hr
  response d hd m hm hno ha := by
    have hsilent := silent_of_answered hg hd hno ha
    have hresp : ((bus p).state u m).hostResp (u m) h = (u m).device d := by
      rw [waits hg hd hsilent hm]
      simp [Bus.hostResp]
    refine ⟨hsilent, ?_, hresp⟩
    rw [← hresp]
    exact ha
  error hd := by
    obtain ⟨hbusy, hhost, herr, _⟩ := state_of_decodeErr hg hd
    simp [Bus.hostResp, hbusy, hhost, herr]

end Delivery

/-- **The bus delivers each access exactly once**, if the devices respond.  Every
grant is delivered and answered, every answer and every request of a device belongs
to a grant, and there is one access in flight at most. -/
theorem bus_delivers (p : BusParams) (u : ℕ → BusIn p) (hdev : DevicesRespond p u) :
    (∀ n h, granted p u n h = true → Delivered p u n h) ∧
    (∀ m h, answered p u m h = true → ∃ n, InFlight p u m n h) ∧
    (∀ n d, requested p u n d = true → ∃ h, granted p u n h = true) ∧
    ∀ t n n' h h', InFlight p u t n h → InFlight p u t n' h' → n = n' ∧ h = h' := by
  refine ⟨fun n h hg => delivered_of_granted hdev hg, ?_, ?_, ?_⟩
  · intro m h ha
    obtain ⟨hbusy, _, rfl⟩ := answered_iff.mp ha
    exact inFlight_of_busy hbusy
  · intro n d hr
    obtain ⟨h, hg, _⟩ := Bus.deviceReq_iff.mp hr
    exact ⟨h, hg⟩
  · intro t n n' h h' hf hf'
    exact hf.unique hf'

/-- Two hosts and a device that decodes the even addresses. -/
def evenParams : BusParams := ⟨1, 2, 8, 8, fun _ => 0, fun _ => 1⟩

/-- Host `0` reads an even address in every fourth cycle, and host `1` an odd one in between;
the device responds one cycle after its request. -/
def evenReads (n : ℕ) : BusIn evenParams where
  host h := ⟨⟨BitVec.ofNat 8 h, false, 0, 0⟩, if h = 0 then n % 4 == 0 else true⟩
  device _ := ⟨n % 4 == 1, 42, false⟩

theorem evenReads_respond : DevicesRespond evenParams evenReads := by
  intro n d _ _
  refine ⟨4 * n + 1, by omega, ?_⟩
  show ((4 * n + 1) % 4 == 1) = true
  rw [Nat.mul_add_mod]
  rfl

theorem evenReads_delivered : Delivered evenParams evenReads 0 0 ∧
    Delivered evenParams evenReads 2 1 :=
  ⟨(bus_delivers evenParams evenReads evenReads_respond).1 0 0 (by decide),
    (bus_delivers evenParams evenReads evenReads_respond).1 2 1 (by decide)⟩

end AxisSystolic
