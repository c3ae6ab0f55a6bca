import AxisSystolic.Ibex.DevToMaxil

/-!
# The transactions of the configuration bridge (`dev_to_maxil.sv`)

What the two ports show in a run is recorded in one trace (`portEvents`): the grants,
the handshakes of the five AXI-Lite channels and the responses to the device port.
One transaction is the events from a grant to its response (`Transaction.events`).
The registers tell which events of the current transaction the trace ends with
(`Ongoing`), and a clock edge shows the next one (`Ongoing.step`), so a trace is a
prefix of whole transactions.
-/

namespace AxisSystolic

open Sync

variable {p : MaxilParams}

/-! ### Transactions -/

/-- A request of the device port. -/
structure DevReq where
  addr : BitVec 32
  we : Bool
  be : BitVec 4
  wdata : BitVec 32
deriving DecidableEq

inductive BridgeEvent (p : MaxilParams) where
  | gnt (q : DevReq)
  | aw (addr : BitVec p.addrWidth)
  | w (data : BitVec p.axiDataWidth) (strb : BitVec (p.axiDataWidth / 8))
  | b (resp : BitVec 2)
  | ar (addr : BitVec p.addrWidth)
  | r (data : BitVec p.axiDataWidth) (resp : BitVec 2)
  | rvalid (err : Bool) (rdata : BitVec 32)
deriving DecidableEq

namespace DevReq

variable (p) (q : DevReq)

/-- The address of the word that `addr` lies in. -/
def wordAddr : BitVec p.addrWidth := BitVec.ofNat p.addrWidth (q.addr.toNat / 4 * 4)

def awEvent : BridgeEvent p := .aw (q.wordAddr p)

def wEvent : BridgeEvent p :=
  .w (q.wdata.setWidth p.axiDataWidth) (q.be.setWidth (p.axiDataWidth / 8))

def arEvent : BridgeEvent p := .ar (q.wordAddr p)

end DevReq

/-- A granted request with the answer of the slave.  The data of a write's answer
means nothing, but is on the port. -/
inductive Transaction (p : MaxilParams) where
  | write (q : DevReq) (hq : q.we = true) (bresp : BitVec 2) (stale : BitVec 32)
  | read (q : DevReq) (hq : q.we = false) (rdata : BitVec p.axiDataWidth) (rresp : BitVec 2)

/-- What the ports show of it. -/
def Transaction.events : Transaction p → List (BridgeEvent p)
  | .write q _ bresp stale =>
    [.gnt q, q.awEvent p, q.wEvent p, .b bresp, .rvalid (bresp != 0) stale]
  | .read q _ rdata rresp =>
    [.gnt q, q.arEvent p, .r rdata rresp, .rvalid (rresp != 0) (rdata.setWidth 32)]

namespace DevToMaxil

variable (s : DevToMaxil p) (i : MaxilIn p)

/-- What the ports show in a cycle. -/
def portEvents : List (BridgeEvent p) :=
  (if s.canGrant i then [.gnt ⟨i.dataAddr, i.dataWe, i.dataBe, i.dataWdata⟩] else [])
    ++ (if s.awHs i then [.aw s.reqAddrAligned] else [])
    ++ (if s.wHs i then [.w s.wdata s.wstrb] else [])
    ++ (if s.bHs i then [.b i.bresp] else [])
    ++ (if s.arHs i then [.ar s.reqAddrAligned] else [])
    ++ (if s.rHs i then [.r i.rdata i.rresp] else [])
    ++ (if s.dataRvalid then [.rvalid s.dataErr s.dataRdata] else [])

/-- What the bridge offers to the slave. -/
def offered : List (BridgeEvent p) :=
  (if s.awvalid then [.aw s.reqAddrAligned] else [])
    ++ (if s.wvalid then [.w s.wdata s.wstrb] else [])
    ++ (if s.arvalid then [.ar s.reqAddrAligned] else [])

/-- The latched request. -/
def req : DevReq := ⟨s.reqAddr, s.reqWe, s.reqBe, s.reqWdata⟩

variable {s i}

theorem reqAddrAligned_eq : s.reqAddrAligned = s.req.wordAddr p := by
  apply BitVec.eq_of_toNat_eq
  have hlt : s.reqAddr.toNat / 4 * 4 < 2 ^ 32 :=
    lt_of_le_of_lt (Nat.div_mul_le_self _ _) s.reqAddr.isLt
  rw [reqAddrAligned, DevReq.wordAddr, BitVec.toNat_setWidth, BitVec.toNat_ofNat,
    BitVec.toNat_shiftLeft, BitVec.toNat_ushiftRight, Nat.shiftLeft_eq, Nat.shiftRight_eq_div_pow]
  show s.reqAddr.toNat / 4 * 4 % 2 ^ 32 % 2 ^ p.addrWidth = _
  rw [Nat.mod_eq_of_lt hlt]
  rfl

theorem step_req_of_not_canGrant (hg : s.canGrant i = false) : (s.step i).req = s.req := by
  simp [req, step, hg]

theorem canGrant_of_reqValid (hr : s.reqValid = true) : s.canGrant i = false := by
  simp [canGrant, hr]

/-- A latched request keeps its fields. -/
theorem step_req (hr : s.reqValid = true) : (s.step i).req = s.req :=
  step_req_of_not_canGrant (canGrant_of_reqValid hr)

theorem step_req_of_canGrant (hg : s.canGrant i = true) :
    (s.step i).req = ⟨i.dataAddr, i.dataWe, i.dataBe, i.dataWdata⟩ := by
  simp [req, step, hg]

/-! ### The current transaction -/

/-- The request `q` is latched, in state `st`. -/
structure Latched (s : DevToMaxil p) (st : MaxilState) (q : DevReq) : Prop where
  state : s.state = st
  valid : s.reqValid = true
  req : s.req = q

/-- What the ports have shown of the current transaction. -/
inductive Ongoing (s : DevToMaxil p) : List (BridgeEvent p) → Prop
  | none (hs : s.state = .idle) (hr : s.reqValid = false) : Ongoing s []
  | granted (q) (h : s.Latched .idle q) : Ongoing s [.gnt q]
  | aw (q) (h : s.Latched .wAw q) (hq : q.we = true) : Ongoing s [.gnt q]
  | w (q) (h : s.Latched .wW q) (hq : q.we = true) : Ongoing s [.gnt q, q.awEvent p]
  | b (q) (h : s.Latched .wB q) (hq : q.we = true) : Ongoing s [.gnt q, q.awEvent p, q.wEvent p]
  | ar (q) (h : s.Latched .rAr q) (hq : q.we = false) : Ongoing s [.gnt q]
  | wait (q) (h : s.Latched .rWait q) (hq : q.we = false) : Ongoing s [.gnt q, q.arEvent p]
  | r (q) (h : s.Latched .rR q) (hq : q.we = false) : Ongoing s [.gnt q, q.arEvent p]
  | wResp (q) (h : s.Latched .resp q) (hq : q.we = true) (bresp : BitVec 2)
      (he : s.respErr = (bresp != 0)) :
      Ongoing s [.gnt q, q.awEvent p, q.wEvent p, .b bresp]
  | rResp (q) (h : s.Latched .resp q) (hq : q.we = false) (rdata : BitVec p.axiDataWidth)
      (rresp : BitVec 2) (he : s.respErr = (rresp != 0)) (hd : s.respRdata = rdata.setWidth 32) :
      Ongoing s [.gnt q, q.arEvent p, .r rdata rresp]

variable {q : DevReq}

theorem Latched.we {st : MaxilState} (h : s.Latched st q) : s.reqWe = q.we :=
  congrArg DevReq.we h.req

theorem Latched.next {st st' : MaxilState} (h : s.Latched st q) (hst : st ≠ .resp)
    (hn : s.nstate i = st') : (s.step i).Latched st' q :=
  ⟨hn, (step_of_reqValid h.valid (h.state ▸ hst)).1, (step_req h.valid).trans h.req⟩

/-- A request whose channel does not go on stays where it is. -/
theorem Latched.stays {st : MaxilState} (h : s.Latched st q) (hst : st ≠ .resp)
    (hgo : slaveGo i.toAxilSlave st = false) : (s.step i).Latched st q := by
  have hstep := (step_of_reqValid (i := i) h.valid (h.state ▸ hst)).2
  rw [h.state, if_neg (by rw [hgo]; exact Bool.false_ne_true)] at hstep
  exact h.next hst hstep

theorem portEvents_of_idle (hs : s.state = .idle) : s.portEvents i =
    if s.canGrant i then [.gnt ⟨i.dataAddr, i.dataWe, i.dataBe, i.dataWdata⟩] else [] := by
  simp [portEvents, awHs, wHs, bHs, arHs, rHs, awvalid, wvalid, bready, arvalid, rready,
    dataRvalid, hs]

/-- What the ports show of the request `q` in each state. -/
def shown (s : DevToMaxil p) (i : MaxilIn p) (q : DevReq) : MaxilState → List (BridgeEvent p)
  | .idle => []
  | .wAw => if i.awready then [q.awEvent p] else []
  | .wW => if i.wready then [q.wEvent p] else []
  | .wB => if i.bvalid then [.b i.bresp] else []
  | .rAr => if i.arready then [q.arEvent p] else []
  | .rWait => []
  | .rR => if i.rvalid then [.r i.rdata i.rresp] else []
  | .resp => [.rvalid s.respErr s.respRdata]

theorem Latched.awEvent_eq {st : MaxilState} (h : s.Latched st q) :
    q.awEvent p = .aw s.reqAddrAligned := by
  rw [reqAddrAligned_eq, h.req]
  rfl

theorem Latched.arEvent_eq {st : MaxilState} (h : s.Latched st q) :
    q.arEvent p = .ar s.reqAddrAligned := by
  rw [reqAddrAligned_eq, h.req]
  rfl

theorem Latched.wEvent_eq {st : MaxilState} (h : s.Latched st q) :
    q.wEvent p = .w s.wdata s.wstrb := by
  rw [← h.req]
  rfl

theorem Latched.portEvents_eq {st : MaxilState} (h : s.Latched st q) :
    s.portEvents i = s.shown i q st := by
  have hst := h.state
  cases st <;>
    simp [portEvents, shown, h.awEvent_eq, h.arEvent_eq, h.wEvent_eq, canGrant_of_reqValid h.valid,
      awHs, wHs, bHs, arHs, rHs, awvalid, wvalid, bready, arvalid, rready, dataRvalid, dataErr,
      dataRdata, hst]

/-- A clock edge shows what comes next of the transaction, or the response, which
ends it. -/
theorem Ongoing.step {l : List (BridgeEvent p)} (h : Ongoing s l) :
    Ongoing (s.step i) (l ++ s.portEvents i) ∨
      (Ongoing (s.step i) [] ∧ ∃ tx : Transaction p, l ++ s.portEvents i = tx.events) := by
  cases h with
  | none hs hr =>
    obtain ⟨hs', hr'⟩ := step_of_idle (i := i) hs hr
    rw [portEvents_of_idle hs]
    rcases hg : s.canGrant i with _ | _
    · exact Or.inl (.none hs' (hr'.trans hg))
    · exact Or.inl (.granted _ ⟨hs', hr'.trans hg, step_req_of_canGrant hg⟩)
  | granted q h =>
    rw [h.portEvents_eq]
    rcases hq : q.we with _ | _
    · exact Or.inl (.ar q (h.next (by decide) (by simp [nstate, h.state, h.valid, h.we, hq])) hq)
    · exact Or.inl (.aw q (h.next (by decide) (by simp [nstate, h.state, h.valid, h.we, hq])) hq)
  | aw q h hq =>
    rw [h.portEvents_eq, shown]
    rcases hgo : i.awready with _ | _
    · exact Or.inl (.aw q (h.stays (by decide) hgo) hq)
    · exact Or.inl (.w q (h.next (by decide) (by simp [nstate, h.state, awHs, awvalid, hgo])) hq)
  | w q h hq =>
    rw [h.portEvents_eq, shown]
    rcases hgo : i.wready with _ | _
    · exact Or.inl (.w q (h.stays (by decide) hgo) hq)
    · exact Or.inl (.b q (h.next (by decide) (by simp [nstate, h.state, wHs, wvalid, hgo])) hq)
  | b q h hq =>
    rw [h.portEvents_eq, shown]
    rcases hgo : i.bvalid with _ | _
    · exact Or.inl (.b q (h.stays (by decide) hgo) hq)
    · refine Or.inl (.wResp q (h.next (by decide) ?_) hq i.bresp ?_)
      · simp [nstate, h.state, bHs, bready, hgo]
      · simp [DevToMaxil.step, rHs, rready, bHs, bready, h.state, hgo]
  | ar q h hq =>
    rw [h.portEvents_eq, shown]
    rcases hgo : i.arready with _ | _
    · exact Or.inl (.ar q (h.stays (by decide) hgo) hq)
    · exact Or.inl (.wait q (h.next (by decide) (by simp [nstate, h.state, arHs, arvalid, hgo])) hq)
  | wait q h hq =>
    rw [h.portEvents_eq, shown]
    exact Or.inl (.r q (h.next (by decide) (by simp [nstate, h.state])) hq)
  | r q h hq =>
    rw [h.portEvents_eq, shown]
    rcases hgo : i.rvalid with _ | _
    · exact Or.inl (.r q (h.stays (by decide) hgo) hq)
    · refine Or.inl (.rResp q (h.next (by decide) ?_) hq i.rdata i.rresp ?_ ?_)
      · simp [nstate, h.state, rHs, rready, hgo]
      · simp [DevToMaxil.step, rHs, rready, h.state, hgo]
      · simp [DevToMaxil.step, rHs, rready, h.state, hgo]
  | wResp q h hq bresp he =>
    obtain ⟨hs', hr'⟩ := step_of_resp (i := i) h.state
    refine Or.inr ⟨.none hs' hr', .write q hq bresp s.respRdata, ?_⟩
    rw [h.portEvents_eq, shown, he]
    rfl
  | rResp q h hq rdata rresp he hd =>
    obtain ⟨hs', hr'⟩ := step_of_resp (i := i) h.state
    refine Or.inr ⟨.none hs' hr', .read q hq rdata rresp, ?_⟩
    rw [h.portEvents_eq, shown, he, hd]
    rfl

/-- What is offered comes next, too. -/
theorem Ongoing.offered_prefix {l : List (BridgeEvent p)} (h : Ongoing s l) :
    ∃ tx : Transaction p, l ++ s.offered <+: tx.events := by
  have hoffered : ∀ st, s.state = st → st ≠ .wAw → st ≠ .wW → st ≠ .rAr → s.offered = [] := by
    intro st hst h1 h2 h3
    simp [offered, awvalid, wvalid, arvalid, hst, h1, h2, h3]
  cases h with
  | none hs hr =>
    rw [hoffered _ hs (by decide) (by decide) (by decide)]
    exact ⟨.write ⟨0, true, 0, 0⟩ rfl 0 0, List.nil_prefix⟩
  | granted q h =>
    rw [hoffered _ h.state (by decide) (by decide) (by decide)]
    rcases hq : q.we with _ | _
    · exact ⟨.read q hq 0 0, _, rfl⟩
    · exact ⟨.write q hq 0 0, _, rfl⟩
  | aw q h hq =>
    have hoff : s.offered = [q.awEvent p] := by
      simp [offered, awvalid, wvalid, arvalid, h.state, h.awEvent_eq]
    rw [hoff]
    exact ⟨.write q hq 0 0, _, rfl⟩
  | w q h hq =>
    have hoff : s.offered = [q.wEvent p] := by
      simp [offered, awvalid, wvalid, arvalid, h.state, h.wEvent_eq]
    rw [hoff]
    exact ⟨.write q hq 0 0, _, rfl⟩
  | b q h hq =>
    rw [hoffered _ h.state (by decide) (by decide) (by decide)]
    exact ⟨.write q hq 0 0, _, rfl⟩
  | ar q h hq =>
    have hoff : s.offered = [q.arEvent p] := by
      simp [offered, awvalid, wvalid, arvalid, h.state, h.arEvent_eq]
    rw [hoff]
    exact ⟨.read q hq 0 0, _, rfl⟩
  | wait q h hq =>
    rw [hoffered _ h.state (by decide) (by decide) (by decide)]
    exact ⟨.read q hq 0 0, _, rfl⟩
  | r q h hq =>
    rw [hoffered _ h.state (by decide) (by decide) (by decide)]
    exact ⟨.read q hq 0 0, _, rfl⟩
  | wResp q h hq bresp he =>
    rw [hoffered _ h.state (by decide) (by decide) (by decide)]
    exact ⟨.write q hq bresp 0, _, rfl⟩
  | rResp q h hq rdata rresp he hd =>
    rw [hoffered _ h.state (by decide) (by decide) (by decide)]
    exact ⟨.read q hq rdata rresp, _, rfl⟩

/-! ### Waiting -/

/-- A bridge that the slave keeps waiting stands still. -/
theorem step_of_stall (hgo : slaveGo i.toAxilSlave s.state = false) :
    (s.step i).state = s.state ∧ (s.step i).req = s.req := by
  have hne : s.state ≠ .idle := by
    intro hs
    rw [hs] at hgo
    cases hgo
  have hgrant : s.canGrant i = false := by simp [canGrant, hne]
  refine ⟨?_, step_req_of_not_canGrant hgrant⟩
  show s.nstate i = s.state
  rcases hst : s.state with _ | _ | _ | _ | _ | _ | _ | _ <;>
    simp_all [slaveGo, nstate, awHs, awvalid, wHs, wvalid, bHs, bready, arHs, arvalid, rHs, rready]

end DevToMaxil

/-! ### Runs -/

section Runs

open DevToMaxil

variable (p) (u : ℕ → MaxilIn p)

/-- What the ports have shown before cycle `t`. -/
def bridgeTrace (t : ℕ) : List (BridgeEvent p) := (devToMaxil p).trace u portEvents t

/-- The slave does not keep a channel waiting for ever. -/
def SlaveAnswers : Prop :=
  ∀ n, ∃ k, n ≤ k ∧
    slaveGo (u k).toAxilSlave ((devToMaxil p).state u k).state = true

def bridgeGrants (n : ℕ) : Bool := ((devToMaxil p).state u n).canGrant (u n)

def bridgeResponds (n : ℕ) : Bool := ((devToMaxil p).state u n).dataRvalid

variable {p u}

/-- The trace is that of whole transactions and of the current one. -/
theorem bridgeTrace_eq (t : ℕ) : ∃ (txs : List (Transaction p)) (l : List (BridgeEvent p)),
    bridgeTrace p u t = txs.flatMap Transaction.events ++ l ∧
      ((devToMaxil p).state u t).Ongoing l := by
  induction t with
  | zero => exact ⟨[], [], rfl, .none rfl rfl⟩
  | succ t ih =>
    obtain ⟨txs, l, htrace, hon⟩ := ih
    have hsucc : bridgeTrace p u (t + 1)
        = txs.flatMap Transaction.events
          ++ (l ++ ((devToMaxil p).state u t).portEvents (u t)) := by
      rw [← List.append_assoc, ← htrace]
      rfl
    rcases hon.step (i := u t) with hon' | ⟨hon', tx, htx⟩
    · exact ⟨txs, _, hsucc, hon'⟩
    · refine ⟨txs ++ [tx], [], ?_, hon'⟩
      rw [hsucc, htx, List.append_nil, List.flatMap_append, List.flatMap_singleton]

/-- What is offered in state `st` stays as it is. -/
theorem stableUntil_of_state {α : Type*} (st : MaxilState) (f : DevReq → α) :
    (devToMaxil p).StableUntil u (fun s => s.state == st) (fun i => slaveGo i.toAxilSlave st)
      (fun s => f s.req) := by
  apply Machine.stableUntil_of_step
  intro t hv hr
  have hst : ((devToMaxil p).state u t).state = st := by simpa using hv
  obtain ⟨hs', hreq⟩ := step_of_stall (i := u t) (hst.symm ▸ hr)
  refine ⟨?_, congrArg f hreq⟩
  rw [beq_iff_eq, ← hst]
  exact hs'

/-- A granted request waits for its response, and is through when it comes. -/
theorem reqValid_of_bridgeGrants {n : ℕ} (hg : bridgeGrants p u n = true) :
    ((devToMaxil p).state u (n + 1)).reqValid = true := by
  have hidle : ((devToMaxil p).state u n).state = .idle ∧
      ((devToMaxil p).state u n).reqValid = false := by
    simp only [bridgeGrants, canGrant, Bool.and_eq_true, beq_iff_eq, Bool.not_eq_true'] at hg
    exact hg.1
  exact (step_of_idle hidle.1 hidle.2).2.trans hg

/-- What is left of the latched request. -/
def DevToMaxil.rank (s : DevToMaxil p) : ℕ := if s.reqValid then stage s.state + 1 else 0

theorem DevToMaxil.rank_step (s : DevToMaxil p) (i : MaxilIn p) (hr : s.reqValid = true) :
    (s.step i).rank ≤ s.rank ∧
      (slaveGo i.toAxilSlave s.state = true → (s.step i).rank < s.rank) := by
  by_cases hs : s.state = .resp
  · have hzero : (s.step i).rank = 0 := by simp [rank, (step_of_resp hs).2]
    have hone : s.rank = 1 := by simp [rank, hr, hs, stage]
    omega
  · obtain ⟨hr', hstage⟩ := step_of_reqValid (i := i) hr hs
    unfold rank
    rw [if_pos hr, if_pos hr']
    split at hstage
    · omega
    · next hgo =>
      rw [hstage]
      exact ⟨le_rfl, fun h => absurd h hgo⟩

/-- What is granted in cycle `n` is answered in cycle `m`, with no grant and no other
response on the way. -/
def BridgeAnswers (p : MaxilParams) (u : ℕ → MaxilIn p) (n m : ℕ) : Prop :=
  n < m ∧ bridgeResponds p u m = true ∧
    ∀ k, n < k → k ≤ m → bridgeGrants p u k = false ∧ (bridgeResponds p u k = true → k = m)

theorem bridgeAnswers_of_slaveAnswers (hslave : SlaveAnswers p u) {n : ℕ}
    (hg : bridgeGrants p u n = true) : ∃ m, BridgeAnswers p u n m := by
  have hvalid : ∀ m, ((devToMaxil p).state u m).rank ≠ 0 →
      ((devToMaxil p).state u m).reqValid = true := by
    intro m hm
    by_contra hr
    exact hm (if_neg hr)
  obtain ⟨m, hm, hzero, hbefore⟩ := @runs_down (fun m => ((devToMaxil p).state u m).rank)
    (fun m hm => (rank_step _ (u m) (hvalid m hm)).1) (fun m => by
      obtain ⟨k, hk, hgo⟩ := hslave m
      exact ⟨k, hk, fun hrk => (rank_step _ (u k) (hvalid k hrk)).2 hgo⟩) (n + 1)
  have hne : m ≠ n + 1 := by
    rintro rfl
    have hone : ((devToMaxil p).state u (n + 1)).rank ≠ 0 := by
      rw [rank, if_pos (reqValid_of_bridgeGrants hg)]
      exact Nat.succ_ne_zero _
    exact hone hzero
  obtain ⟨m, rfl⟩ : ∃ j, m = j + 1 := ⟨m - 1, by omega⟩
  have hlatched : ∀ k, n < k → k ≤ m → ((devToMaxil p).state u k).reqValid = true :=
    fun k hk hkm => hvalid k (hbefore k hk (by omega))
  -- the request is latched in cycle `m` and not in the next
  have hcleared : ((devToMaxil p).state u (m + 1)).reqValid = false := by
    by_contra hr
    rw [rank, if_pos (Bool.not_eq_false _ ▸ hr)] at hzero
    exact Nat.succ_ne_zero _ hzero
  have hresp : ((devToMaxil p).state u m).state = .resp := by
    by_contra hs
    have hr' := (step_of_reqValid (i := u m) (hlatched m (by omega) le_rfl) hs).1
    rw [show (((devToMaxil p).state u m).step (u m)).reqValid = false from hcleared] at hr'
    cases hr'
  refine ⟨m, by omega, ?_, ?_⟩
  · rw [bridgeResponds, dataRvalid, hresp]
    rfl
  · intro k hk hkm
    refine ⟨canGrant_of_reqValid (hlatched k hk hkm), ?_⟩
    intro hrk
    by_contra hkm'
    have hs : ((devToMaxil p).state u k).state = .resp := by
      simpa [bridgeResponds, dataRvalid] using hrk
    have hr' := hlatched (k + 1) (by omega) (by omega)
    rw [show ((devToMaxil p).state u (k + 1)).reqValid = false from
      (step_of_resp (i := u k) hs).2] at hr'
    cases hr'

end Runs

/-- **The bridge performs its granted requests one by one**: what the ports have
shown and what is offered is a prefix of whole transactions, an offer stays as it is
until its handshake, and every grant is answered if the slave answers. -/
theorem bridge_exact (p : MaxilParams) (u : ℕ → MaxilIn p) :
    (∀ t, ∃ txs : List (Transaction p),
      bridgeTrace p u t ++ ((devToMaxil p).state u t).offered <+:
        txs.flatMap Transaction.events) ∧
    (devToMaxil p).StableUntil u DevToMaxil.awvalid (fun i => i.awready)
      DevToMaxil.reqAddrAligned ∧
    (devToMaxil p).StableUntil u DevToMaxil.wvalid (fun i => i.wready)
      (fun s => (s.wdata, s.wstrb)) ∧
    (devToMaxil p).StableUntil u DevToMaxil.arvalid (fun i => i.arready)
      DevToMaxil.reqAddrAligned ∧
    (SlaveAnswers p u → ∀ n, bridgeGrants p u n = true → ∃ m, BridgeAnswers p u n m) := by
  refine ⟨?_, ?_, ?_, ?_, fun hslave n hg => bridgeAnswers_of_slaveAnswers hslave hg⟩
  · intro t
    obtain ⟨txs, l, htrace, hon⟩ := bridgeTrace_eq (p := p) (u := u) t
    obtain ⟨tx, hpre⟩ := hon.offered_prefix
    refine ⟨txs ++ [tx], ?_⟩
    rw [htrace, List.append_assoc, List.flatMap_append, List.flatMap_singleton]
    exact (List.prefix_append_right_inj _).mpr hpre
  · exact stableUntil_of_state .wAw fun q =>
      (((q.addr >>> 2) <<< 2).setWidth p.addrWidth : BitVec p.addrWidth)
  · exact stableUntil_of_state .wW fun q =>
      ((q.wdata.setWidth p.axiDataWidth, q.be.setWidth (p.axiDataWidth / 8)) :
        BitVec p.axiDataWidth × BitVec (p.axiDataWidth / 8))
  · exact stableUntil_of_state .rAr fun q =>
      (((q.addr >>> 2) <<< 2).setWidth p.addrWidth : BitVec p.addrWidth)

/-- A write of `7` to address `5`, and a slave that takes two cycles for each channel. -/
def slowWrite (n : ℕ) : MaxilIn ⟨32, 32, 8⟩ where
  awready := n % 2 == 1
  wready := n % 2 == 1
  bresp := 2
  bvalid := n % 2 == 1
  arready := n % 2 == 1
  rdata := 0
  rresp := 0
  rvalid := n % 2 == 1
  dataReq := n == 0
  dataAddr := 5
  dataWe := true
  dataBe := 1
  dataWdata := 7

theorem slowWrite_answers : ∃ m, BridgeAnswers ⟨32, 32, 8⟩ slowWrite 0 m := by
  refine (bridge_exact ⟨32, 32, 8⟩ slowWrite).2.2.2.2 ?_ 0 (by decide)
  intro n
  refine ⟨2 * n + 1, by omega, ?_⟩
  have hodd : ((2 * n + 1) % 2 == 1) = true := by
    rw [Nat.mul_add_mod]
    rfl
  cases ((devToMaxil ⟨32, 32, 8⟩).state slowWrite (2 * n + 1)).state <;>
    first | rfl | exact hodd

/-- The trace of this write. -/
example : bridgeTrace ⟨32, 32, 8⟩ slowWrite 9 =
    [.gnt ⟨5, true, 1, 7⟩, .aw 4, .w 7 1, .b 2, .rvalid true 0] := by
  decide

end AxisSystolic
