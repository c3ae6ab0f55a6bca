import AxisSystolic.Axil.Write
import AxisSystolic.Dma.Controller
import AxisSystolic.Ibex.Transactions

/-!
# From the device port to the registers (`sa_for_ibex.v`, `top_axi_int.v`)

A request of the device port goes through the bridge and the register port to the
registers of the controller.  The register port acknowledges at once, so a request takes
a fixed way: `Serving q d k` is the state `k` cycles after request `q` has been granted,
where `d` is the value that a read has got.

So the requests are atomic accesses of the registers, one at a time: a write happens in
the fourth cycle after its grant and is answered in the sixth, a read happens in the third
and is answered in the fifth.
-/

namespace AxisSystolic

open Sync

/-- The parameters of the instances in `sa_for_ibex`. -/
abbrev maxil32 (pollGap : ℕ) : MaxilParams := ⟨32, 32, pollGap⟩

abbrev axil32 : AxilParams := ⟨32, 32, 4, 2⟩

/-- The device port, and the side of the controller that the DMA engines see. -/
structure ConfigIn where
  dataReq : Bool
  req : DevReq
  ready : Channel → Bool
  statusValid : Channel → Bool
  statusError : Channel → BitVec 4

/-- The bridge, the register port and the registers. -/
structure ConfigPath (pollGap : ℕ) where
  bridge : DevToMaxil (maxil32 pollGap)
  wr : AxilWr axil32
  rd : AxilRd axil32
  cfg : Cfg dma32

/-- `reg_wr_addr_ctrl` and `reg_rd_addr_ctrl`. -/
def regAddrCtrl (base a : BitVec 32) : BitVec 32 := (a - base) >>> 2

namespace ConfigPath

variable {g : ℕ} (base : BitVec 32) (s : ConfigPath g) (i : ConfigIn)

/-! ### Wires -/

def slave : AxilSlave (maxil32 g) where
  awready := s.wr.sAwready
  wready := s.wr.sWready
  bresp := 0
  bvalid := s.wr.bvalid
  arready := s.rd.sArready
  rdata := s.rd.rdata
  rresp := 0
  rvalid := s.rd.rvalid

def maxilIn : MaxilIn (maxil32 g) where
  toAxilSlave := s.slave
  dataReq := i.dataReq
  dataAddr := i.req.addr
  dataWe := i.req.we
  dataBe := i.req.be
  dataWdata := i.req.wdata

def wrIn : AxilWrIn axil32 where
  awaddr := s.bridge.reqAddrAligned
  awvalid := s.bridge.awvalid
  wdata := s.bridge.wdata
  wstrb := s.bridge.wstrb.setWidth 4
  wvalid := s.bridge.wvalid
  bready := s.bridge.bready
  regWrWait := false
  regWrAck := true

def rdIn : AxilRdIn axil32 where
  araddr := s.bridge.reqAddrAligned
  arvalid := s.bridge.arvalid
  rready := s.bridge.rready
  regRdData := s.cfg.regRdData (regAddrCtrl base s.rd.araddr).toNat
  regRdWait := false
  regRdAck := true

def dmaIn : DmaIn dma32 where
  regWrEn := s.wr.regWrEn
  regWrAddr := regAddrCtrl base s.wr.awaddr
  regWrData := s.wr.wdata
  ready := i.ready
  statusValid := i.statusValid
  statusError := i.statusError

/-- A clock edge. -/
def step : ConfigPath g where
  bridge := s.bridge.step (s.maxilIn i)
  wr := s.wr.step s.wrIn
  rd := s.rd.step (s.rdIn base)
  cfg := s.cfg.step (s.dmaIn base i)

/-- A request is granted. -/
def granted : Option DevReq := if s.bridge.canGrant (s.maxilIn i) then some i.req else none

end ConfigPath

/-- The clocked machine of the path. -/
def configPath (g : ℕ) (base : BitVec 32) : Machine (ConfigPath g) ConfigIn where
  reset := ⟨.reset _, .reset _, .reset _, Cfg.reset _⟩
  step s i := s.step base i

/-! ### The register that is meant -/

/-- The word address that the bridge issues. -/
def DevReq.aligned (q : DevReq) : BitVec 32 := (q.addr >>> 2) <<< 2

/-- The register of a request. -/
def DevReq.reg (base : BitVec 32) (q : DevReq) : ℕ := (regAddrCtrl base q.aligned).toNat

/-- Register `r` is at byte `4 * r` from the base. -/
theorem DevReq.reg_of_addr {base : BitVec 32} {q : DevReq} {r : ℕ} (hbase : base.toNat % 4 = 0)
    (hr : 4 * r < 2 ^ 32) (hq : q.addr = base + BitVec.ofNat 32 (4 * r)) : q.reg base = r := by
  have hal : q.aligned = q.addr := by
    apply BitVec.eq_of_toNat_eq
    have hmod : q.addr.toNat % 4 = 0 := by
      rw [hq, BitVec.toNat_add, BitVec.toNat_ofNat]
      omega
    have hlt := q.addr.isLt
    rw [aligned, BitVec.toNat_shiftLeft, BitVec.toNat_ushiftRight, Nat.shiftLeft_eq,
      Nat.shiftRight_eq_div_pow]
    omega
  have hdiff : q.addr - base = BitVec.ofNat 32 (4 * r) := by
    rw [hq, BitVec.add_comm, BitVec.add_sub_cancel]
  rw [reg, hal, regAddrCtrl, hdiff, BitVec.toNat_ushiftRight, BitVec.toNat_ofNat,
    Nat.mod_eq_of_lt hr, Nat.shiftRight_eq_div_pow]
  omega

/-- The cycles from the grant to the answer. -/
def DevReq.latency (q : DevReq) : ℕ := if q.we then 6 else 5

/-! ### The way of a request -/

namespace ConfigPath

variable {g : ℕ} {base : BitVec 32} {s : ConfigPath g} {i : ConfigIn} {q : DevReq} {d : BitVec 32}

/-- Nothing is in the register port. -/
structure PortQuiet (s : ConfigPath g) : Prop where
  awvalid : s.wr.awvalid = false
  wvalid : s.wr.wvalid = false
  bvalid : s.wr.bvalid = false
  arvalid : s.rd.arvalid = false
  rvalid : s.rd.rvalid = false

/-- No request is being served. -/
structure Quiet (s : ConfigPath g) : Prop extends s.PortQuiet where
  state : s.bridge.state = .idle
  reqValid : s.bridge.reqValid = false

/-- The bridge holds request `q`. -/
structure Holds (q : DevReq) (s : ConfigPath g) : Prop where
  reqValid : s.bridge.reqValid = true
  reqAddr : s.bridge.reqAddr = q.addr
  reqWe : s.bridge.reqWe = q.we
  reqWdata : s.bridge.reqWdata = q.wdata

/-- What `k` cycles after the grant of a write is in the bridge and the register port. -/
def ServingWrite (q : DevReq) (s : ConfigPath g) : ℕ → Prop
  | 1 => s.bridge.state = .idle ∧ s.PortQuiet
  | 2 => s.bridge.state = .wAw ∧ s.PortQuiet
  | 3 => s.bridge.state = .wW ∧ s.wr.awvalid = true ∧ s.wr.awaddr = q.aligned ∧
      s.wr.wvalid = false ∧ s.wr.bvalid = false ∧ s.rd.arvalid = false ∧ s.rd.rvalid = false
  | 4 => s.bridge.state = .wB ∧ s.wr.awvalid = true ∧ s.wr.awaddr = q.aligned ∧
      s.wr.wvalid = true ∧ s.wr.wdata = q.wdata ∧ s.wr.bvalid = false ∧
      s.rd.arvalid = false ∧ s.rd.rvalid = false
  | 5 => s.bridge.state = .wB ∧ s.wr.awvalid = false ∧ s.wr.wvalid = false ∧
      s.wr.bvalid = true ∧ s.rd.arvalid = false ∧ s.rd.rvalid = false
  | 6 => s.bridge.state = .resp ∧ s.PortQuiet ∧ s.bridge.respErr = false
  | _ => False

/-- The same for a read, which gets the value `d`. -/
def ServingRead (q : DevReq) (d : BitVec 32) (s : ConfigPath g) : ℕ → Prop
  | 1 => s.bridge.state = .idle ∧ s.PortQuiet
  | 2 => s.bridge.state = .rAr ∧ s.PortQuiet
  | 3 => s.bridge.state = .rWait ∧ s.rd.arvalid = true ∧ s.rd.araddr = q.aligned ∧
      s.rd.rvalid = false ∧ s.wr.awvalid = false ∧ s.wr.wvalid = false ∧ s.wr.bvalid = false
  | 4 => s.bridge.state = .rR ∧ s.rd.arvalid = false ∧ s.rd.rvalid = true ∧ s.rd.rdata = d ∧
      s.wr.awvalid = false ∧ s.wr.wvalid = false ∧ s.wr.bvalid = false
  | 5 => s.bridge.state = .resp ∧ s.PortQuiet ∧ s.bridge.respErr = false ∧
      s.bridge.respRdata = d
  | _ => False

/-! ### A cycle -/

/-- What the request needs from its registers: they stay as they are until it is answered. -/
theorem Holds.step (h : Holds q s) (hs : s.bridge.state ≠ .resp) : Holds q (s.step base i) := by
  have hg : s.bridge.canGrant (s.maxilIn i) = false := by
    simp [DevToMaxil.canGrant, h.reqValid]
  refine ⟨?_, ?_, ?_, ?_⟩
  · exact (DevToMaxil.step_of_reqValid h.reqValid hs).1
  · simp [ConfigPath.step, DevToMaxil.step, hg, h.reqAddr]
  · simp [ConfigPath.step, DevToMaxil.step, hg, h.reqWe]
  · simp [ConfigPath.step, DevToMaxil.step, hg, h.reqWdata]

theorem Holds.aligned (h : Holds q s) : s.bridge.reqAddrAligned = q.aligned := by
  rw [DevToMaxil.reqAddrAligned, h.reqAddr]
  exact BitVec.setWidth_eq _

theorem Holds.wdata (h : Holds q s) : s.bridge.wdata = q.wdata := by
  rw [DevToMaxil.wdata, h.reqWdata]
  exact BitVec.setWidth_eq _

/-- What the register port of writes does, as it acknowledges at once. -/
theorem wr_step_eq (base : BitVec 32) (s : ConfigPath g) (i : ConfigIn) :
    (s.step base i).wr.awvalid = (if s.wr.awvalid then !s.wr.regWrEn else s.bridge.awvalid) ∧
    (s.step base i).wr.awaddr
      = (if s.wr.awvalid then s.wr.awaddr else s.bridge.reqAddrAligned) ∧
    (s.step base i).wr.wvalid = (if s.wr.wvalid then !s.wr.regWrEn else s.bridge.wvalid) ∧
    (s.step base i).wr.wdata = (if s.wr.wvalid then s.wr.wdata else s.bridge.wdata) ∧
    (s.step base i).wr.bvalid
      = (if s.wr.regWrEn then true else s.wr.bvalid && !s.bridge.bready) := by
  simp [ConfigPath.step, AxilWr.step, AxilWr.awvalidNext, AxilWr.wvalidNext, AxilWr.bvalidNext,
    AxilWr.wrDone, wrIn]

/-- And that of reads. -/
theorem rd_step_eq (base : BitVec 32) (s : ConfigPath g) (i : ConfigIn) :
    (s.step base i).rd.arvalid = (if s.rd.arvalid then !s.rd.regRdEn else s.bridge.arvalid) ∧
    (s.step base i).rd.araddr
      = (if s.rd.arvalid then s.rd.araddr else s.bridge.reqAddrAligned) ∧
    (s.step base i).rd.rvalid
      = (if s.rd.regRdEn then true else s.rd.rvalid && !s.bridge.rready) ∧
    (s.step base i).rd.rdata = (if s.rd.regRdEn then
      s.cfg.regRdData (regAddrCtrl base s.rd.araddr).toNat else s.rd.rdata) := by
  simp [ConfigPath.step, AxilRd.step, AxilRd.arvalidNext, AxilRd.rvalidNext, AxilRd.rdDone, rdIn]

/-- The registers that tell when the port is enabled. -/
structure Enabled (s : ConfigPath g) : Prop where
  wr : s.wr.regWrEn = (s.wr.awvalid && s.wr.wvalid && !s.wr.bvalid)
  rd : s.rd.regRdEn = (s.rd.arvalid && !s.rd.rvalid)

theorem enabled_step (s : ConfigPath g) (i : ConfigIn) : Enabled (s.step base i) := ⟨rfl, rfl⟩

/-- Without an offer of the bridge the port stays quiet. -/
theorem PortQuiet.step (h : s.PortQuiet) (he : Enabled s) (haw : s.bridge.awvalid = false)
    (hw : s.bridge.wvalid = false) (har : s.bridge.arvalid = false) :
    (s.step base i).PortQuiet := by
  obtain ⟨haw', _, hw', _, hb'⟩ := wr_step_eq base s i
  obtain ⟨har', _, hr', _⟩ := rd_step_eq base s i
  refine ⟨?_, ?_, ?_, ?_, ?_⟩
  · rw [haw', h.awvalid, haw]; rfl
  · rw [hw', h.wvalid, hw]; rfl
  · rw [hb', he.wr, h.awvalid, h.bvalid]; rfl
  · rw [har', h.arvalid, har]; rfl
  · rw [hr', he.rd, h.arvalid, h.rvalid]; rfl

/-- The bridge's next state. -/
theorem bridge_step_state (base : BitVec 32) (s : ConfigPath g) (i : ConfigIn) :
    (s.step base i).bridge.state = s.bridge.nstate (s.maxilIn i) := rfl

theorem servingWrite_step (he : Enabled s) (h : Holds q s) (hw : q.we = true) {k : ℕ}
    (hk : k < 6) (hs : ServingWrite q s k) : ServingWrite q (s.step base i) (k + 1) := by
  obtain ⟨haw', haddr', hw', hdata', hb'⟩ := wr_step_eq base s i
  obtain ⟨har', _, hr', _⟩ := rd_step_eq base s i
  have henw := he.wr
  have henr := he.rd
  have hst' := bridge_step_state base s i
  match k, hs with
  | 1, ⟨hst, hq⟩ =>
    refine ⟨?_, hq.step he ?_ ?_ ?_⟩
    · rw [hst']
      simp [DevToMaxil.nstate, hst, h.reqValid, h.reqWe, hw]
    · simp [DevToMaxil.awvalid, hst]
    · simp [DevToMaxil.wvalid, hst]
    · simp [DevToMaxil.arvalid, hst]
  | 2, ⟨hst, hq⟩ =>
    simp [ServingWrite, hst', haw', haddr', hw', hb', har', hr', henw, henr, hq.awvalid, hq.wvalid,
      hq.bvalid, hq.arvalid, hq.rvalid, DevToMaxil.nstate, DevToMaxil.awHs, DevToMaxil.awvalid,
      DevToMaxil.wvalid, DevToMaxil.arvalid, hst, maxilIn, slave, AxilWr.sAwready, h.aligned]
  | 3, ⟨hst, haw, haddr, hwv, hb, har, hr⟩ =>
    simp [ServingWrite, hst', haw', haddr', hw', hdata', hb', har', hr', henw, henr, haw, haddr,
      hwv, hb, har, hr, DevToMaxil.nstate, DevToMaxil.wHs, DevToMaxil.wvalid, DevToMaxil.arvalid,
      hst, maxilIn, slave, AxilWr.sWready, h.wdata]
  | 4, ⟨hst, haw, haddr, hwv, hdata, hb, har, hr⟩ =>
    simp [ServingWrite, hst', haw', hw', hb', har', hr', henw, henr, haw, hwv, hb, har, hr,
      DevToMaxil.nstate, DevToMaxil.bHs, DevToMaxil.arvalid, hst, maxilIn, slave]
  | 5, ⟨hst, haw, hwv, hb, har, hr⟩ =>
    have herr : (s.step base i).bridge.respErr = false := by
      simp [ConfigPath.step, DevToMaxil.step, DevToMaxil.rHs, DevToMaxil.rready, DevToMaxil.bHs,
        DevToMaxil.bready, hst, maxilIn, slave, hb]
    refine ⟨?_, ⟨?_, ?_, ?_, ?_, ?_⟩, herr⟩ <;>
      simp [hst', haw', hw', hb', har', hr', henw, henr, haw, hwv, hb, har, hr, DevToMaxil.nstate,
        DevToMaxil.bHs, DevToMaxil.bready, DevToMaxil.awvalid, DevToMaxil.wvalid,
        DevToMaxil.arvalid, hst, maxilIn, slave]

theorem servingRead_step (he : Enabled s) (h : Holds q s) (hw : q.we = false) {k : ℕ}
    (hk : k < 5) (hs : ServingRead q d s k) :
    ServingRead q (if k = 3 then s.cfg (q.reg base) else d) (s.step base i) (k + 1) := by
  obtain ⟨haw', _, hw', _, hb'⟩ := wr_step_eq base s i
  obtain ⟨har', haddr', hr', hdata'⟩ := rd_step_eq base s i
  have henw := he.wr
  have henr := he.rd
  have hst' := bridge_step_state base s i
  match k, hs with
  | 1, ⟨hst, hq⟩ =>
    refine ⟨?_, hq.step he ?_ ?_ ?_⟩
    · rw [hst']
      simp [DevToMaxil.nstate, hst, h.reqValid, h.reqWe, hw]
    · simp [DevToMaxil.awvalid, hst]
    · simp [DevToMaxil.wvalid, hst]
    · simp [DevToMaxil.arvalid, hst]
  | 2, ⟨hst, hq⟩ =>
    simp [ServingRead, hst', haw', haddr', hw', hb', har', hr', henw, henr, hq.awvalid, hq.wvalid,
      hq.bvalid, hq.arvalid, hq.rvalid, DevToMaxil.nstate, DevToMaxil.arHs, DevToMaxil.awvalid,
      DevToMaxil.wvalid, DevToMaxil.arvalid, hst, maxilIn, slave, AxilRd.sArready, h.aligned]
  | 3, ⟨hst, har, haddr, hr, haw, hwv, hb⟩ =>
    simp [ServingRead, hst', haw', hw', hdata', hb', har', hr', henw, henr, haw, haddr, hwv, hb,
      har, hr, DevToMaxil.nstate, DevToMaxil.awvalid, DevToMaxil.wvalid, hst, DevReq.reg,
      Cfg.regRdData]
  | 4, ⟨hst, har, hr, hdata, haw, hwv, hb⟩ =>
    have hresp : (s.step base i).bridge.respErr = false ∧ (s.step base i).bridge.respRdata = d := by
      simp [ConfigPath.step, DevToMaxil.step, DevToMaxil.rHs, DevToMaxil.rready, hst, maxilIn,
        slave, hr, hdata]
    refine ⟨?_, ⟨?_, ?_, ?_, ?_, ?_⟩, hresp⟩ <;>
      simp [hst', haw', hw', hb', har', hr', henw, henr, haw, hwv, hb, har, hr, DevToMaxil.nstate,
        DevToMaxil.rHs, DevToMaxil.rready, DevToMaxil.awvalid, DevToMaxil.wvalid,
        DevToMaxil.arvalid, hst, maxilIn, slave]

/-- Request `q` has been granted `k` cycles ago. -/
structure Serving (q : DevReq) (d : BitVec 32) (k : ℕ) (s : ConfigPath g) : Prop where
  enabled : Enabled s
  holds : Holds q s
  stage : if q.we then ServingWrite q s k else ServingRead q d s k

variable {k : ℕ}

theorem Serving.of_write (h : Serving q d k s) (hw : q.we = true) : ServingWrite q s k := by
  have := h.stage
  rwa [if_pos hw] at this

theorem Serving.of_read (h : Serving q d k s) (hw : q.we = false) : ServingRead q d s k := by
  have := h.stage
  rwa [if_neg (by rw [hw]; exact Bool.false_ne_true)] at this

/-- Only a quiet bridge grants a request. -/
theorem granted_eq_none (h : s.bridge.reqValid = true) : s.granted i = none := by
  simp [granted, DevToMaxil.canGrant, h]

theorem Quiet.step (h : s.Quiet) (he : Enabled s) (hg : s.granted i = none) :
    (s.step base i).Quiet := by
  have hno : s.bridge.canGrant (s.maxilIn i) = false := by
    rw [granted] at hg
    split at hg
    · cases hg
    · next hc => exact Bool.eq_false_iff.mpr hc
  obtain ⟨hst, hreq⟩ := DevToMaxil.step_of_idle (i := s.maxilIn i) h.state h.reqValid
  refine ⟨h.toPortQuiet.step he ?_ ?_ ?_, hst, hreq.trans hno⟩ <;>
    simp [DevToMaxil.awvalid, DevToMaxil.wvalid, DevToMaxil.arvalid, h.state]

theorem Quiet.serve (h : s.Quiet) (he : Enabled s) (hg : s.granted i = some q) (d : BitVec 32) :
    Serving q d 1 (s.step base i) := by
  rw [granted] at hg
  split at hg
  · next hc =>
    obtain rfl := Option.some.inj hg
    obtain ⟨hst, hreq⟩ := DevToMaxil.step_of_idle (i := s.maxilIn i) h.state h.reqValid
    have hport : (s.step base i).PortQuiet := by
      refine h.toPortQuiet.step he ?_ ?_ ?_ <;>
        simp [DevToMaxil.awvalid, DevToMaxil.wvalid, DevToMaxil.arvalid, h.state]
    refine ⟨enabled_step s i, ⟨hreq.trans hc, ?_, ?_, ?_⟩, ?_⟩
    · exact if_pos hc
    · exact if_pos hc
    · exact if_pos hc
    · split
      · exact ⟨hst, hport⟩
      · exact ⟨hst, hport⟩
  · cases hg

/-- Up to its answer the request goes on. -/
theorem Serving.step (h : Serving q d k s) (hk : k < q.latency) :
    Serving q (if k = 3 then s.cfg (q.reg base) else d) (k + 1) (s.step base i) := by
  cases hw : q.we with
  | true =>
    have hs := h.of_write hw
    rw [DevReq.latency, if_pos hw] at hk
    have hne : s.bridge.state ≠ .resp := by
      match k, hs with
      | 1, ⟨hst, _⟩ => simp [hst]
      | 2, ⟨hst, _⟩ => simp [hst]
      | 3, ⟨hst, _⟩ => simp [hst]
      | 4, ⟨hst, _⟩ => simp [hst]
      | 5, ⟨hst, _⟩ => simp [hst]
    refine ⟨enabled_step s i, h.holds.step hne, ?_⟩
    rw [if_pos hw]
    exact servingWrite_step h.enabled h.holds hw hk hs
  | false =>
    have hs := h.of_read hw
    rw [DevReq.latency, if_neg (by rw [hw]; exact Bool.false_ne_true)] at hk
    have hne : s.bridge.state ≠ .resp := by
      match k, hs with
      | 1, ⟨hst, _⟩ => simp [hst]
      | 2, ⟨hst, _⟩ => simp [hst]
      | 3, ⟨hst, _⟩ => simp [hst]
      | 4, ⟨hst, _⟩ => simp [hst]
    refine ⟨enabled_step s i, h.holds.step hne, ?_⟩
    rw [if_neg (by rw [hw]; exact Bool.false_ne_true)]
    exact servingRead_step h.enabled h.holds hw hk hs

/-- In the cycle of the answer. -/
theorem Serving.answer (h : Serving q d q.latency s) : s.bridge.state = .resp ∧ s.PortQuiet ∧
    s.bridge.respErr = false ∧ (q.we = false → s.bridge.respRdata = d) := by
  cases hw : q.we with
  | true =>
    have hs := h.of_write hw
    rw [DevReq.latency, if_pos hw] at hs
    exact ⟨hs.1, hs.2.1, hs.2.2, fun hno => nomatch hno⟩
  | false =>
    have hs := h.of_read hw
    rw [DevReq.latency, if_neg (by rw [hw]; exact Bool.false_ne_true)] at hs
    exact ⟨hs.1, hs.2.1, hs.2.2.1, fun _ => hs.2.2.2⟩

/-- After it there is nothing. -/
theorem Serving.done (h : Serving q d q.latency s) : (s.step base i).Quiet := by
  obtain ⟨hst, hport, _⟩ := h.answer
  obtain ⟨hst', hreq⟩ := DevToMaxil.step_of_resp (i := s.maxilIn i) hst
  refine ⟨hport.step h.enabled ?_ ?_ ?_, hst', hreq⟩ <;>
    simp [DevToMaxil.awvalid, DevToMaxil.wvalid, DevToMaxil.arvalid, hst]

/-- The answer is given in the last cycle only. -/
theorem Serving.eq_latency (h : Serving q d k s) (hst : s.bridge.state = .resp) :
    k = q.latency := by
  cases hw : q.we with
  | true =>
    rw [DevReq.latency, if_pos hw]
    match k, h.of_write hw with
    | 1, ⟨h', _⟩ => simp [hst] at h'
    | 2, ⟨h', _⟩ => simp [hst] at h'
    | 3, ⟨h', _⟩ => simp [hst] at h'
    | 4, ⟨h', _⟩ => simp [hst] at h'
    | 5, ⟨h', _⟩ => simp [hst] at h'
    | 6, _ => rfl
  | false =>
    rw [DevReq.latency, if_neg (by rw [hw]; exact Bool.false_ne_true)]
    match k, h.of_read hw with
    | 1, ⟨h', _⟩ => simp [hst] at h'
    | 2, ⟨h', _⟩ => simp [hst] at h'
    | 3, ⟨h', _⟩ => simp [hst] at h'
    | 4, ⟨h', _⟩ => simp [hst] at h'
    | 5, _ => rfl

/-- The registers are written in the fourth cycle of a write only. -/
theorem Serving.eq_four (h : Serving q d k s) (hen : s.wr.regWrEn = true) :
    q.we = true ∧ k = 4 := by
  rw [h.enabled.wr] at hen
  cases hw : q.we with
  | true =>
    refine ⟨rfl, ?_⟩
    match k, h.of_write hw with
    | 1, ⟨_, hp⟩ => simp [hp.awvalid] at hen
    | 2, ⟨_, hp⟩ => simp [hp.awvalid] at hen
    | 3, ⟨_, _, _, hwv, _⟩ => simp [hwv] at hen
    | 4, _ => rfl
    | 5, ⟨_, haw, _⟩ => simp [haw] at hen
    | 6, ⟨_, hp, _⟩ => simp [hp.awvalid] at hen
  | false =>
    match k, h.of_read hw with
    | 1, ⟨_, hp⟩ => simp [hp.awvalid] at hen
    | 2, ⟨_, hp⟩ => simp [hp.awvalid] at hen
    | 3, ⟨_, _, _, _, haw, _⟩ => simp [haw] at hen
    | 4, ⟨_, _, _, _, haw, _⟩ => simp [haw] at hen
    | 5, ⟨_, hp, _⟩ => simp [hp.awvalid] at hen

end ConfigPath

/-! ### Runs -/

section Runs

variable {g : ℕ} {base : BitVec 32} {u : ℕ → ConfigIn} {t : ℕ} {q q' : DevReq}

/-- Either nothing is served, or what has been granted some cycles ago. -/
structure ConfigInv (u : ℕ → ConfigIn) (t : ℕ) (s : ConfigPath g) (run : ℕ → ConfigPath g) :
    Prop where
  enabled : s.Enabled
  stage : s.Quiet ∨ ∃ t0 q d k, t = t0 + k ∧ k ≤ q.latency ∧
    (run t0).granted (u t0) = some q ∧ s.Serving q d k

theorem config_inv (u : ℕ → ConfigIn) (t : ℕ) :
    ConfigInv u t ((configPath g base).state u t) ((configPath g base).state u) := by
  induction t with
  | zero => exact ⟨⟨rfl, rfl⟩, .inl ⟨⟨rfl, rfl, rfl, rfl, rfl⟩, rfl, rfl⟩⟩
  | succ t ih =>
    refine ⟨ConfigPath.enabled_step _ _, ?_⟩
    rcases ih.stage with hq | ⟨t0, q, d, k, ht, hk, hg, hs⟩
    · cases hgr : ((configPath g base).state u t).granted (u t) with
      | none => exact .inl (hq.step ih.enabled hgr)
      | some q =>
        refine .inr ⟨t, q, 0, 1, rfl, ?_, hgr, hq.serve ih.enabled hgr 0⟩
        rw [DevReq.latency]
        split <;> omega
    · rcases Nat.lt_or_eq_of_le hk with hlt | rfl
      · exact .inr ⟨t0, q, _, k + 1, by omega, hlt, hg, hs.step hlt⟩
      · exact .inl hs.done

/-- A request is only granted when nothing is served. -/
theorem quiet_of_granted (hg : ((configPath g base).state u t).granted (u t) = some q) :
    ((configPath g base).state u t).Quiet := by
  rcases (config_inv u t).stage with hq | ⟨_, _, _, _, _, _, _, hs⟩
  · exact hq
  · rw [ConfigPath.granted_eq_none hs.holds.reqValid] at hg
    cases hg

/-- The value that a read gets: that of its register in the third cycle. -/
def readValue (g : ℕ) (base : BitVec 32) (u : ℕ → ConfigIn) (t : ℕ) (q : DevReq) : BitVec 32 :=
  ((configPath g base).state u (t + 3)).cfg (q.reg base)

/-- From the grant on the request is served. -/
theorem serving_of_granted (hg : ((configPath g base).state u t).granted (u t) = some q) {k : ℕ}
    (hk : k < q.latency) : ∃ d, ((configPath g base).state u (t + (k + 1))).Serving q d (k + 1) ∧
      (3 ≤ k → d = readValue g base u t q) := by
  induction k with
  | zero =>
    exact ⟨0, (quiet_of_granted hg).serve (config_inv u t).enabled hg 0,
      fun h3 => absurd h3 (by omega)⟩
  | succ k ih =>
    obtain ⟨d, hs, hd⟩ := ih (Nat.lt_of_succ_lt hk)
    refine ⟨_, hs.step hk, ?_⟩
    intro h3
    by_cases hk3 : k + 1 = 3
    · obtain rfl : k = 2 := by omega
      rw [if_pos rfl]
      rfl
    · rw [if_neg hk3]
      exact hd (by omega)

/-- The next request is granted only after the answer. -/
theorem granted_later {t' : ℕ} (hg : ((configPath g base).state u t).granted (u t) = some q)
    (hg' : ((configPath g base).state u t').granted (u t') = some q') (hlt : t < t') :
    t + q.latency < t' := by
  by_contra hno
  obtain ⟨k, rfl⟩ : ∃ k, t' = t + (k + 1) := ⟨t' - t - 1, by omega⟩
  obtain ⟨d, hs, _⟩ := serving_of_granted hg (k := k) (by omega)
  rw [ConfigPath.granted_eq_none hs.holds.reqValid] at hg'
  cases hg'

/-- The write happens in the fourth cycle. -/
theorem written_of_granted (hg : ((configPath g base).state u t).granted (u t) = some q)
    (hw : q.we = true) : ((configPath g base).state u (t + 4)).wr.regWrEn = true ∧
      (regAddrCtrl base ((configPath g base).state u (t + 4)).wr.awaddr).toNat = q.reg base ∧
      ((configPath g base).state u (t + 4)).wr.wdata = q.wdata := by
  have hlat : q.latency = 6 := if_pos hw
  obtain ⟨d, hs, _⟩ := serving_of_granted hg (k := 3) (by omega)
  obtain ⟨_, haw, haddr, hwv, hdata, hb, _⟩ := hs.of_write hw
  refine ⟨?_, ?_, hdata⟩
  · rw [hs.enabled.wr, haw, hwv, hb]
    rfl
  · rw [haddr]
    rfl

theorem answered_of_granted (hg : ((configPath g base).state u t).granted (u t) = some q) :
    ((configPath g base).state u (t + q.latency)).bridge.dataRvalid = true ∧
      ((configPath g base).state u (t + q.latency)).bridge.dataErr = false ∧
      (q.we = false → ((configPath g base).state u (t + q.latency)).bridge.dataRdata
        = readValue g base u t q) := by
  have hpos : 4 < q.latency := by
    rw [DevReq.latency]
    split <;> omega
  obtain ⟨k, hk⟩ := Nat.exists_eq_add_of_le' (Nat.lt_of_le_of_lt (Nat.zero_le 4) hpos)
  obtain ⟨d, hs, hd⟩ := serving_of_granted hg (k := k) (by omega)
  rw [← hk] at hs
  obtain ⟨hst, _, herr, hdata⟩ := hs.answer
  refine ⟨?_, ?_, ?_⟩
  · simp [DevToMaxil.dataRvalid, hst]
  · rw [DevToMaxil.dataErr, if_pos hst, herr]
  · intro hw
    rw [DevToMaxil.dataRdata, if_pos hst, hdata hw, hd (by omega)]

/-- **The requests of the device port are atomic accesses of the registers.**  A granted
write is done at its register in the fourth cycle, a granted read gets what its register
has in the third, and each is answered without an error in a cycle that is known.  Nothing
else is written or answered, and the next request is granted only after the answer.  Beyond
the last register nothing is written, and a read gives `0` (`x` in the source). -/
theorem config_path_run (g : ℕ) (base : BitVec 32) (u : ℕ → ConfigIn) :
    let s := (configPath g base).state u
    (∀ t q, (s t).granted (u t) = some q → q.we = true →
      (s (t + 4)).wr.regWrEn = true ∧
      (regAddrCtrl base (s (t + 4)).wr.awaddr).toNat = q.reg base ∧
      (s (t + 4)).wr.wdata = q.wdata ∧
      (q.reg base < 16 → (s (t + 5)).cfg (q.reg base) = q.wdata)) ∧
    (∀ t q, (s t).granted (u t) = some q →
      (s (t + q.latency)).bridge.dataRvalid = true ∧
      (s (t + q.latency)).bridge.dataErr = false ∧
      (q.we = false → (s (t + q.latency)).bridge.dataRdata = (s (t + 3)).cfg (q.reg base))) ∧
    (∀ t, (s t).wr.regWrEn = true →
      ∃ t0 q, t = t0 + 4 ∧ (s t0).granted (u t0) = some q ∧ q.we = true) ∧
    (∀ t, (s t).bridge.dataRvalid = true →
      ∃ t0 q, t = t0 + q.latency ∧ (s t0).granted (u t0) = some q) ∧
    (∀ t t' q q', (s t).granted (u t) = some q → (s t').granted (u t') = some q' → t < t' →
      t + q.latency < t') ∧
    (base.toNat % 4 = 0 → ∀ (q : DevReq) (r : ℕ), 4 * r < 2 ^ 32 →
      q.addr = base + BitVec.ofNat 32 (4 * r) → q.reg base = r) := by
  refine ⟨?_, fun t q hg => answered_of_granted hg, ?_, ?_,
    fun t t' q q' hg hg' hlt => granted_later hg hg' hlt,
    fun hb q r hr hq => DevReq.reg_of_addr hb hr hq⟩
  · intro t q hg hw
    obtain ⟨hen, haddr, hdata⟩ := written_of_granted hg hw
    refine ⟨hen, haddr, hdata, ?_⟩
    intro hlt
    exact (Cfg.step_of_writes hlt ⟨hen, haddr⟩).trans hdata
  · intro t hen
    rcases (config_inv u t).stage with hq | ⟨t0, q, d, k, rfl, _, hg, hs⟩
    · rw [(config_inv u t).enabled.wr, hq.awvalid] at hen
      cases hen
    · obtain ⟨hw, rfl⟩ := hs.eq_four hen
      exact ⟨t0, q, rfl, hg, hw⟩
  · intro t hv
    have hst : ((configPath g base).state u t).bridge.state = .resp := by
      simpa [DevToMaxil.dataRvalid] using hv
    rcases (config_inv u t).stage with hq | ⟨t0, q, d, k, rfl, _, hg, hs⟩
    · rw [hq.state] at hst
      cases hst
    · obtain rfl := hs.eq_latency hst
      exact ⟨t0, q, rfl, hg⟩

/-- `START` is written at the base address. -/
def startWrite : ℕ → ConfigIn := fun t =>
  { dataReq := t == 0, req := ⟨0xB0000000, true, 0xF, 1⟩
    ready := fun _ => false, statusValid := fun _ => false, statusError := fun _ => 0 }

theorem startWrite_path : ((configPath 4 0xB0000000).state startWrite 5).cfg aStart = 1 :=
  ((config_path_run 4 0xB0000000 startWrite).1 0 _ rfl rfl).2.2.2 (by decide)

end Runs

end AxisSystolic
