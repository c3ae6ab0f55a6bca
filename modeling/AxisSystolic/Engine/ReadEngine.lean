import AxisSystolic.Engine.OutFifo
import AxisSystolic.Engine.ReadData

/-!
# The read engine (`alex_axi_dma_rd.sv`)

The three parts of the engine together: the requests, the data and the output FIFO.  The
FIFO tells the second part late that it is half full, and that one puts in a beat without
asking when the last one needs no word; still there is always room for it (`Room`).

So in every run the engine requests the bursts of its descriptors, and if the memory
answers them in order, gives out for each descriptor a frame with the bytes of the memory
(`rdEngine_run`).
-/

namespace AxisSystolic

open Sync Mem

/-- The inputs of a cycle. -/
structure RdEngineIn (p : AxiDmaParams) where
  desc : RdDesc p
  descValid : Bool
  arready : Bool
  rdata : BitVec (8 * p.strbWidth)
  rresp : BitVec 2
  rvalid : Bool
  mReady : Bool
  enable : Bool

/-- The registers. -/
structure RdEngine (p : AxiDmaParams) where
  request : RdRequest p
  data : RdData p
  out : OutFifo (RdBeat p)

variable {p : AxiDmaParams}

/-- What is passed on of `tid`, `tdest` and `tuser`. -/
def AxiDmaParams.gate (p : AxiDmaParams) (x : AxisSide p.side) : AxisSide p.side where
  tid := if p.side.idEnable then x.tid else BitVec.ofNat _ p.axiId
  tdest := if p.side.destEnable then x.tdest else 0
  tuser := if p.side.userEnable then x.tuser else 0

/-- The wires `m_axis_read_data_*`. -/
def RdBeat.mAxis (b : RdBeat p) : RdBeat p := { b with side := p.gate b.side }

def RdOut.gated (o : RdOut p) : RdOut p := { o with side := p.gate o.side }

namespace RdEngine

variable (s : RdEngine p) (i : RdEngineIn p)

/-! ### Wires -/

def dataIn : RdDataIn p where
  cmd := s.request.cmd
  cmdValid := s.request.cmdValid
  rdata := i.rdata
  rresp := i.rresp
  rvalid := i.rvalid
  treadyInt := !s.out.halfFull

def requestIn : RdRequestIn p where
  desc := i.desc
  descValid := i.descValid
  arready := i.arready
  enable := i.enable
  cmdReady := s.data.cmdReady (s.dataIn i)

def outIn : OutFifoIn (RdBeat p) := ⟨s.data.pushed (s.dataIn i), i.mReady⟩

/-- A clock edge. -/
def step : RdEngine p where
  request := s.request.step (s.requestIn i)
  data := s.data.step (s.dataIn i)
  out := s.out.step (s.outIn i)

/-- The descriptor that is taken in. -/
def descTaken : Option (RdDesc p) := s.request.taken (s.requestIn i)

/-- The burst whose request is accepted. -/
def arTaken : Option AxiBurst := s.request.arTaken (s.requestIn i)

/-- The word that is received. -/
def rTaken : Option (RdData.Word p) := s.data.rTaken (s.dataIn i)

/-- The beat that is given out. -/
def given : Option (RdBeat p) := (s.out.given (s.outIn i)).map RdBeat.mAxis

/-- What is held and not yet given out. -/
def heldOut : List (RdOut p) := s.out.held.map (RdBeat.out ∘ RdBeat.mAxis)

/-- The status that is reported. -/
def status : Option (BitVec p.tagWidth × BitVec 4) := s.data.status

end RdEngine

/-- The clocked machine of `alex_axi_dma_rd`. -/
def rdEngine (p : AxiDmaParams) : Machine (RdEngine p) (RdEngineIn p) where
  reset := ⟨.reset p, .reset p, .reset ⟨0, 0, false, p.sideReset⟩⟩
  step := RdEngine.step

/-! ### Room in the FIFO -/

namespace RdData

variable {s : RdData p} {i : RdDataIn p}

/-- All words have come, and the last beat is made without one. -/
def Tail (s : RdData p) : Prop := s.state = .read ∧ s.inputActive = false

theorem treadyInt_of_rready (h : (s.step i).rready = true) : i.treadyInt = true := by
  cases hst : s.state <;> cases hm : s.moves i <;> cases hb : s.bubble <;>
    cases hl : s.outputLastCycle <;> simp [RdData.step, hst, hm, hb, hl] at h <;>
    first | exact h.1 | exact h.2

theorem takes_or_tail {b : RdBeat p} (h : s.pushed i = some b) : s.takes i = true ∨ s.Tail := by
  cases hst : s.state with
  | idle => simp [pushed, hst] at h
  | read =>
    cases hm : s.moves i with
    | false => simp [pushed, hm] at h
    | true =>
      rw [moves, Bool.or_eq_true, Bool.not_eq_true'] at hm
      exact hm.imp id fun ha => ⟨hst, ha⟩

/-- The tail only comes with the last word. -/
theorem takes_of_tail {started : List (RdDesc p)} {rs : List (Word p)} {outs : List (RdOut p)}
    {sts : List (BitVec p.tagWidth × BitVec 4)} (h : Phase s started rs outs sts)
    (ht : (s.step i).Tail) : s.takes i = true := by
  obtain ⟨hstate, hactive⟩ := ht
  cases h with
  | rest done h => simp [RdData.step, h.state] at hactive
  | read done d ws k h hfit =>
    by_contra hno
    rw [Bool.not_eq_true] at hno
    cases ha : s.inputActive with
    | true =>
      have hm : s.moves i = false := by rw [moves, hno, ha]; rfl
      simp [RdData.step, h.state, hm, ha] at hactive
    | false =>
      -- all words have come before, so the last beat goes out
      have hall : ws.length = d.inWords := by
        rw [h.active] at ha
        exact Nat.le_antisymm h.le (Nat.le_of_not_lt (of_decide_eq_false ha))
      obtain ⟨hm, hb, hl⟩ := h.tail hfit hall i
      rw [(h.push_last hfit hm hb hl).2.1.state] at hstate
      cases hstate

end RdData

namespace RdEngine

variable {s : RdEngine p} {i : RdEngineIn p}

/-- The beats in the ring, by what the second part may do next. -/
structure Room (s : RdEngine p) : Prop where
  le : s.out.ring.count ≤ 19
  low : s.out.halfFull = false → s.out.ring.count ≤ 16
  rready : s.data.rready = true → s.out.ring.count ≤ 17
  tail : s.data.Tail → s.out.ring.count ≤ 18

theorem room_reset : Room (rdEngine p).reset := by
  have hzero : (rdEngine p).reset.out.ring.count = 0 := OutFifo.count_reset _
  refine ⟨?_, ?_, ?_, ?_⟩ <;> rw [hzero]
  · exact Nat.zero_le _
  · exact fun _ => Nat.zero_le _
  · exact fun _ => Nat.zero_le _
  · exact fun _ => Nat.zero_le _

/-- A beat that is put in finds room. -/
theorem Room.pushed_eq (h : Room s) : s.out.pushed (s.outIn i) = s.data.pushed (s.dataIn i) := by
  have hnot : s.out.full = false := by
    by_contra hf
    rw [Bool.not_eq_false, OutFifo.full_iff] at hf
    have := h.le
    omega
  rw [OutFifo.pushed, hnot]
  rfl

/-- What is held and what is put in is given out or held then. -/
theorem Room.heldOut_step (h : Room s) (i : RdEngineIn p) :
    s.heldOut ++ (s.data.pushed (s.dataIn i)).toList.map (RdBeat.out ∘ RdBeat.mAxis)
      = (s.given i).toList.map RdBeat.out ++ (s.step i).heldOut := by
  have hheld := OutFifo.held_step (s := s.out) (i := s.outIn i) (Nat.le_trans h.le (by decide))
  have hmap := congrArg (List.map (RdBeat.out ∘ RdBeat.mAxis)) hheld
  rw [List.map_append, List.map_append, h.pushed_eq] at hmap
  have hgiven : (s.given i).toList.map RdBeat.out
      = (s.out.given (s.outIn i)).toList.map (RdBeat.out ∘ RdBeat.mAxis) := by
    rw [given]
    cases s.out.given (s.outIn i) <;> rfl
  rw [hgiven]
  exact hmap

variable {started : List (RdDesc p)} {rs : List (RdData.Word p)} {outs : List (RdOut p)}
  {sts : List (BitVec p.tagWidth × BitVec 4)}

theorem Room.step (h : Room s) (hp : RdData.Phase s.data started rs outs sts) (i : RdEngineIn p) :
    Room (s.step i) := by
  have hle := h.le
  have hcount : (s.step i).out.ring.count
      ≤ s.out.ring.count + (s.data.pushed (s.dataIn i)).toList.length := by
    have := OutFifo.count_step (s := s.out) (i := s.outIn i) (by omega)
    rw [h.pushed_eq] at this
    exact Nat.le.intro this
  -- a beat is only put in with a word, or in the tail
  have hpush : ∀ b, s.data.pushed (s.dataIn i) = some b →
      s.data.rready = true ∧ s.out.ring.count ≤ 17 ∨ s.out.ring.count ≤ 18 := by
    intro b hb
    rcases RdData.takes_or_tail hb with ht | ht
    · rw [RdData.takes, Bool.and_eq_true] at ht
      exact Or.inl ⟨ht.1, h.rready ht.1⟩
    · exact Or.inr (h.tail ht)
  have hlen : (s.data.pushed (s.dataIn i)).toList.length ≤ 1 := by
    cases s.data.pushed (s.dataIn i) <;> simp
  refine ⟨?_, ?_, ?_, ?_⟩
  · cases hb : s.data.pushed (s.dataIn i) with
    | none =>
      rw [hb, Option.toList_none, List.length_nil] at hcount
      omega
    | some b =>
      rw [hb, Option.toList_some, List.length_singleton] at hcount
      have := hpush b hb
      omega
  · intro hhalf
    have hlow : ¬2 ^ 4 ≤ s.out.ring.count := of_decide_eq_false hhalf
    omega
  · intro hr
    have hhalf : s.out.halfFull = false := by
      have := RdData.treadyInt_of_rready hr
      simpa [dataIn] using this
    have := h.low hhalf
    omega
  · intro ht
    have htakes := RdData.takes_of_tail hp ht
    rw [RdData.takes, Bool.and_eq_true] at htakes
    have := h.rready htakes.1
    omega

/-! ### One cycle -/

/-- Descriptors `ds` have been taken in, requests `ars` accepted, words `rs` received and
beats `gs` given out; `sts` are the status, with the one being reported. -/
structure Serves (ds : List (RdDesc p)) (ars : List AxiBurst) (rs : List (RdData.Word p))
    (gs : List (RdBeat p)) (sts : List (BitVec p.tagWidth × BitVec 4)) (s : RdEngine p) : Prop where
  room : Room s
  parts : ∃ started pend outs, ds = started ++ pend.toList ∧
    RdRequest.Requests ds ars pend s.request ∧ RdData.Phase s.data started rs outs sts ∧
    outs.map RdOut.gated = gs.map RdBeat.out ++ s.heldOut

theorem serves_reset : Serves [] [] [] [] [] (rdEngine p).reset :=
  ⟨room_reset, [], none, [], rfl, RdRequest.requests_reset, RdData.phase_reset, by
    show [] = [] ++ (OutFifo.reset _).held.map _
    rw [OutFifo.held_reset]
    rfl⟩

theorem Serves.step {ds : List (RdDesc p)} {ars : List AxiBurst} {gs : List (RdBeat p)}
    (h : Serves ds ars rs gs sts s) (hfit : ∀ d ∈ ds, d.Fits) (i : RdEngineIn p) :
    Serves (ds ++ (s.descTaken i).toList) (ars ++ (s.arTaken i).toList)
      (rs ++ (s.rTaken i).toList) (gs ++ (s.given i).toList)
      (sts ++ ((s.step i).status).toList) (s.step i) := by
  obtain ⟨hroom, started, pend, outs, hds, hreq, hphase, houts⟩ := h
  refine ⟨hroom.step hphase i, ?_⟩
  have hvalid : (s.dataIn i).cmdValid = pend.isSome := hreq.valid
  have hcmd : ∀ d ∈ pend, (s.dataIn i).cmd = d.cmd ∧ d.Fits := fun d hd =>
    ⟨hreq.cmd d hd, hfit d (by
      rw [hds, Option.mem_def.mp hd]
      exact List.mem_append_right _ (List.mem_singleton_self d))⟩
  have hphase' := hphase.step hvalid hcmd
  have hreq' := hreq.step (s.requestIn i)
  refine ⟨_, _, _, ?_, hreq', hphase', ?_⟩
  · rw [hds, List.append_assoc, List.append_assoc]
    congr 1
    -- a command that goes on is the one that waits, and none comes while one waits
    rw [descTaken, RdRequest.taken, RdRequest.pendNext]
    cases ha : s.request.accepts (s.requestIn i) with
    | false =>
      cases hc : s.data.cmdReady (s.dataIn i) <;> simp [requestIn, hc]
    | true =>
      have hnone : pend = none := by
        rw [RdRequest.accepts, Bool.and_eq_true] at ha
        have := (hreq.ready ha.1).1
        rw [hreq.valid] at this
        simpa using this
      subst hnone
      simp
  · have hpushed : ((s.data.pushed (s.dataIn i)).map RdBeat.out).toList.map RdOut.gated
        = (s.data.pushed (s.dataIn i)).toList.map (RdBeat.out ∘ RdBeat.mAxis) := by
      cases s.data.pushed (s.dataIn i) <;> rfl
    rw [List.map_append, houts, List.map_append, hpushed, List.append_assoc, List.append_assoc,
      hroom.heldOut_step]

end RdEngine

/-! ### Words and descriptors -/

namespace RdData

/-- The words for each of the descriptors, as far as they have come. -/
def deal : List (RdDesc p) → List (Word p) → List (Job p)
  | [], _ => []
  | d :: ds, rs => (d, rs.take d.inWords) :: deal ds (rs.drop d.inWords)

theorem deal_append {done : List (Job p)} (all : ∀ x ∈ done, x.2.length = x.1.inWords)
    (ds : List (RdDesc p)) (rs : List (Word p)) :
    deal (done.map Prod.fst ++ ds) (done.flatMap Prod.snd ++ rs) = done ++ deal ds rs := by
  induction done with
  | nil => rfl
  | cons x done ih =>
    have hx := all x List.mem_cons_self
    rw [List.map_cons, List.cons_append, List.flatMap_cons, List.append_assoc, deal,
      List.take_left' hx, List.drop_left' hx, ih fun y hy => all y (List.mem_cons_of_mem _ hy)]
    rfl

theorem length_deal (ds : List (RdDesc p)) (rs : List (Word p)) :
    (deal ds rs).length = ds.length := by
  induction ds generalizing rs with
  | nil => rfl
  | cons d ds ih => rw [deal, List.length_cons, ih, List.length_cons]

theorem map_tag_deal (ds : List (RdDesc p)) (rs : List (Word p)) :
    (deal ds rs).map (Prod.fst ∘ statusOf) = ds.map RdDesc.tag := by
  induction ds generalizing rs with
  | nil => rfl
  | cons d ds ih =>
    rw [deal, List.map_cons, ih]
    rfl

/-- The words of a descriptor in a memory. -/
def memWords (m : Memory) (d : RdDesc p) : List (BitVec (8 * p.strbWidth)) :=
  d.words.map fun x => word m (x * p.strbWidth) p.strbWidth

theorem length_memWords (m : Memory) (d : RdDesc p) : (memWords m d).length = d.inWords := by
  rw [memWords, List.length_map, RdDesc.words, List.length_range']

/-- If the words that have come are those of the memory, so are those of each descriptor. -/
theorem words_of_le {m : Memory} {done : List (Job p)}
    (all : ∀ x ∈ done, x.2.length = x.1.inWords) {ds : List (RdDesc p)} {rs : List (Word p)}
    (h : (done.flatMap Prod.snd ++ rs).map Prod.fst
      <+: (done.map Prod.fst ++ ds).flatMap (memWords m)) :
    (∀ x ∈ done, x.2.map Prod.fst = memWords m x.1) ∧
      rs.map Prod.fst <+: ds.flatMap (memWords m) := by
  induction done with
  | nil => exact ⟨nofun, h⟩
  | cons x done ih =>
    have hlen : (x.2.map Prod.fst).length = (memWords m x.1).length := by
      rw [List.length_map, length_memWords, all x List.mem_cons_self]
    rw [List.flatMap_cons, List.append_assoc, List.map_append, List.map_cons, List.cons_append,
      List.flatMap_cons] at h
    -- of two beginnings of one list that are as long as each other, each is the other
    have hx : x.2.map Prod.fst = memWords m x.1 :=
      (List.prefix_of_prefix_length_le ((List.prefix_append _ _).trans h)
        (List.prefix_append _ _) (Nat.le_of_eq hlen)).eq_of_length hlen
    rw [hx, List.prefix_append_right_inj] at h
    obtain ⟨hdone, hrest⟩ := ih (fun y hy => all y (List.mem_cons_of_mem _ hy)) h
    refine ⟨fun y hy => ?_, hrest⟩
    rcases List.mem_cons.mp hy with rfl | hy
    · exact hx
    · exact hdone y hy

/-- The beats that are out begin the frame. -/
theorem firstBeats_le {d : RdDesc p} (hfit : d.Fits) {ws : List (Word p)} {k : ℕ}
    {s : RdData p} (h : Reading d ws k s) {full : List (BitVec (8 * p.strbWidth))}
    (hws : ws.map Prod.fst <+: full) (hfull : full.length = d.inWords) :
    firstBeats d ws k <+: d.frame full := by
  obtain ⟨rest, rfl⟩ := hws
  have hcount := h.outCount
  have hbeats : firstBeats d ws k = (List.range k).map fun t =>
      d.out (chunk p.strbWidth d.off t (bytesOf (ws.map Prod.fst ++ rest)), false) := by
    apply List.map_congr_left
    intro t ht
    rw [bytesOf_append, chunk_append]
    rw [length_bytesOf, List.length_map]
    exact h.covered (List.mem_range.mp ht)
  have hsplit : d.outBeats - 1 = k + (d.outBeats - 1 - k) := by omega
  rw [hfit.frame_eq hfull, hbeats, hsplit, List.range_add, List.map_append, List.append_assoc]
  exact List.prefix_append _ _

variable {s : RdData p} {started more : List (RdDesc p)} {rs : List (Word p)}
  {outs : List (RdOut p)} {sts : List (BitVec p.tagWidth × BitVec 4)}

/-- The status are those of the descriptors, in order. -/
theorem Phase.status_le (h : Phase s started rs outs sts) (more : List (RdDesc p)) :
    sts <+: (deal (started ++ more) rs).map statusOf := by
  cases h with
  | rest done h all hd hr ho hs =>
    rw [hs, hd, hr, ← List.append_nil (done.flatMap _), deal_append all, List.map_append]
    exact List.prefix_append _ _
  | read done d ws k h hfit all hd hr ho hs =>
    rw [hs, hd, hr, List.append_assoc, deal_append all, List.map_append]
    exact List.prefix_append _ _

/-- The beats are those of the frames, if the words are those of the memory; and the frames
of the descriptors whose status is out are complete. -/
theorem Phase.outs_le (h : Phase s started rs outs sts) {m : Memory}
    (hm : rs.map Prod.fst <+: (started ++ more).flatMap (memWords m)) :
    outs <+: (started ++ more).flatMap (fun d => d.frame (memWords m d)) ∧
    ((started ++ more).take sts.length).flatMap (fun d => d.frame (memWords m d)) <+: outs := by
  have hframes : ∀ done : List (Job p), (∀ x ∈ done, x.2.map Prod.fst = memWords m x.1) →
      done.flatMap frameOf = (done.map Prod.fst).flatMap fun d => d.frame (memWords m d) := by
    intro done hall
    rw [List.flatMap_map]
    exact List.flatMap_congr fun x hx => by rw [frameOf, hall x hx]
  cases h with
  | rest done h all hd hr ho hs =>
    rw [hd, hr, ← List.append_nil (done.flatMap _)] at hm
    have hall := (words_of_le all hm).1
    rw [ho, hd, hs, hframes done hall, List.length_map, List.take_left' (List.length_map _),
      List.flatMap_append]
    exact ⟨List.prefix_append _ _, List.prefix_refl _⟩
  | read done d ws k h hfit all hd hr ho hs =>
    rw [hd, hr, List.append_assoc] at hm
    obtain ⟨hall, hws⟩ := words_of_le all hm
    rw [List.singleton_append, List.flatMap_cons] at hws
    have hlen : (ws.map Prod.fst).length ≤ (memWords m d).length := by
      rw [List.length_map, length_memWords]
      exact h.le
    have hfirst := firstBeats_le hfit h
      (List.prefix_of_prefix_length_le hws (List.prefix_append _ _) hlen) (length_memWords m d)
    rw [ho, hd, hs, hframes done hall, List.length_map, List.append_assoc,
      List.take_left' (List.length_map _), List.flatMap_append, List.singleton_append,
      List.flatMap_cons]
    exact ⟨(List.prefix_append_right_inj _).mpr (hfirst.trans (List.prefix_append _ _)),
      List.prefix_append _ _⟩

end RdData

/-! ### Runs -/

section Runs

variable (v : ℕ → WithRstn (RdEngineIn p))

/-- The descriptors that have been taken in since the last reset. -/
def rdDescs (t : ℕ) : List (RdDesc p) := (rdEngine p).sinceReset v RdEngine.descTaken t

/-- The bursts that have been requested since then. -/
def rdBursts (t : ℕ) : List AxiBurst := (rdEngine p).sinceReset v RdEngine.arTaken t

/-- The words that have been received since then. -/
def rdWords (t : ℕ) : List (RdData.Word p) := (rdEngine p).sinceReset v RdEngine.rTaken t

/-- The beats that have been given out since then. -/
def rdGiven (t : ℕ) : List (RdBeat p) := (rdEngine p).sinceReset v RdEngine.given t

/-- The status that have been reported since then. -/
def rdStatus (t : ℕ) : List (BitVec p.tagWidth × BitVec 4) :=
  (rdEngine p).sinceReset v (fun s _ => RdEngine.status s) t

variable {v}

theorem rdDescs_subset {t : ℕ} (hr : (v t).rstn = true) :
    ∀ d ∈ rdDescs v t, d ∈ rdDescs v (t + 1) := by
  intro d hd
  rw [rdDescs, Machine.sinceReset_succ_of_rstn hr]
  exact List.mem_append_left _ hd

theorem serves_run (v : ℕ → WithRstn (RdEngineIn p)) (t : ℕ) (hfit : ∀ d ∈ rdDescs v t, d.Fits) :
    RdEngine.Serves (rdDescs v t) (rdBursts v t) (rdWords v t) (rdGiven v t)
      (rdStatus v t ++ (((rdEngine p).resettable.state v t).status).toList)
      ((rdEngine p).resettable.state v t) := by
  induction t with
  | zero => exact RdEngine.serves_reset
  | succ t ih =>
    cases hr : (v t).rstn with
    | false =>
      rw [rdDescs, rdBursts, rdWords, rdGiven, rdStatus, Machine.sinceReset_succ_of_reset hr,
        Machine.sinceReset_succ_of_reset hr, Machine.sinceReset_succ_of_reset hr,
        Machine.sinceReset_succ_of_reset hr, Machine.sinceReset_succ_of_reset hr,
        Machine.resettable_state_succ_of_reset hr]
      exact RdEngine.serves_reset
    | true =>
      have hold := fun d hd => hfit d (rdDescs_subset hr d hd)
      have hstep := (ih hold).step hold (v t).val
      rw [rdDescs, rdBursts, rdWords, rdGiven, rdStatus, Machine.sinceReset_succ_of_rstn hr,
        Machine.sinceReset_succ_of_rstn hr, Machine.sinceReset_succ_of_rstn hr,
        Machine.sinceReset_succ_of_rstn hr, Machine.sinceReset_succ_of_rstn hr,
        Machine.resettable_state_succ_of_rstn hr]
      exact hstep

/-- What a descriptor has to give out, from a memory. -/
def RdDesc.stream (m : Memory) (d : RdDesc p) : List (RdOut p) :=
  (mark (beats p.strbWidth (bytes m d.addr.toNat d.len.toNat))).map fun b => (d.out b).gated

theorem RdDesc.Fits.stream_eq {d : RdDesc p} (h : d.Fits) (m : Memory) :
    (d.frame (RdData.memWords m d)).map RdOut.gated = d.stream m := by
  rw [RdDesc.frame, RdData.memWords, h.payload_words, List.map_map]
  rfl

theorem map_flatMap_stream {ds : List (RdDesc p)} (hfit : ∀ d ∈ ds, d.Fits) (m : Memory) :
    (ds.flatMap fun d => d.frame (RdData.memWords m d)).map RdOut.gated
      = ds.flatMap (RdDesc.stream m) := by
  rw [List.map_flatMap]
  exact List.flatMap_congr fun d hd => (hfit d hd).stream_eq m

/-- The words that a memory has for the requests. -/
def answers (m : Memory) (ars : List AxiBurst) : List (BitVec (8 * p.strbWidth)) :=
  (ars.flatMap p.words).map fun x => word m (x * p.strbWidth) p.strbWidth

/-- The words for all requests of some descriptors are the words of the descriptors. -/
theorem answers_bursts {ds : List (RdDesc p)} (hfit : ∀ d ∈ ds, d.Fits) (m : Memory) :
    answers m (ds.flatMap RdDesc.bursts) = ds.flatMap (RdData.memWords m) := by
  rw [answers, List.flatMap_assoc, List.map_flatMap]
  exact List.flatMap_congr fun d hd => by rw [(hfit d hd).words_eq]; rfl

theorem rdDescs_bursts {t : ℕ} (hfit : ∀ d ∈ rdDescs v t, d.Fits) :
    (rdDescs v t).flatMap RdDesc.bursts = rdBursts v t
      ++ (if ((rdEngine p).resettable.state v t).request.arvalid
          then [((rdEngine p).resettable.state v t).request.ar] else [])
      ++ ((rdEngine p).resettable.state v t).request.left := by
  obtain ⟨_, _, _, _, _, hreq, _, _⟩ := serves_run v t hfit
  exact hreq.bursts

theorem rdBursts_legal {t : ℕ} (hfit : ∀ d ∈ rdDescs v t, d.Fits) :
    ∀ b ∈ rdBursts v t, p.Legal b := by
  intro b hb
  have hmem : b ∈ (rdDescs v t).flatMap RdDesc.bursts := by
    rw [rdDescs_bursts hfit, List.append_assoc]
    exact List.mem_append_left _ hb
  obtain ⟨d, hd, hbd⟩ := List.mem_flatMap.mp hmem
  exact EngineParams.transfer_legal (hfit d hd).len b hbd

theorem rdStatus_le {t : ℕ} (hfit : ∀ d ∈ rdDescs v t, d.Fits) :
    rdStatus v t <+: (RdData.deal (rdDescs v t) (rdWords v t)).map RdData.statusOf := by
  obtain ⟨_, _, pend, _, hds, _, hphase, _⟩ := serves_run v t hfit
  rw [hds]
  exact (List.prefix_append _ _).trans (hphase.status_le pend.toList)

/-- With the words of a memory, the bytes of the memory come out: not more than the streams of
the descriptors, and not less than those whose status are out. -/
theorem rdGiven_stream {t : ℕ} (hfit : ∀ d ∈ rdDescs v t, d.Fits) {m : Memory}
    (hm : (rdWords v t).map Prod.fst <+: answers m (rdBursts v t)) :
    (rdGiven v t).map RdBeat.out ++ ((rdEngine p).resettable.state v t).heldOut
        <+: (rdDescs v t).flatMap (RdDesc.stream m) ∧
      ((rdDescs v t).take (rdStatus v t).length).flatMap (RdDesc.stream m)
        <+: (rdGiven v t).map RdBeat.out ++ ((rdEngine p).resettable.state v t).heldOut := by
  obtain ⟨_, started, pend, outs, hds, _, hphase, houts⟩ := serves_run v t hfit
  -- the words for the requests so far begin those for all
  have hwords : (rdWords v t).map Prod.fst
      <+: (started ++ pend.toList).flatMap (RdData.memWords m) := by
    rw [← hds, ← answers_bursts hfit m, rdDescs_bursts hfit, List.append_assoc, answers,
      List.flatMap_append, List.map_append]
    exact hm.trans (List.prefix_append _ _)
  obtain ⟨hle, hge⟩ := hphase.outs_le hwords
  rw [← hds] at hle hge
  have hle' := hle.map RdOut.gated
  have hge' := hge.map RdOut.gated
  rw [map_flatMap_stream hfit, houts] at hle'
  rw [map_flatMap_stream fun d hd => hfit d (List.mem_of_mem_take hd), houts] at hge'
  refine ⟨hle', List.IsPrefix.trans ?_ hge'⟩
  have htake : (rdDescs v t).take (rdStatus v t).length
      <+: (rdDescs v t).take (rdStatus v t
        ++ (((rdEngine p).resettable.state v t).status).toList).length :=
    List.take_prefix_take_left (by rw [List.length_append]; exact Nat.le_add_right _ _)
  exact htake.flatMap (RdDesc.stream m)

/-- **The read engine requests what its descriptors ask for, and gives out their frames.**
The bursts are legal and are those of the descriptors, in order.  If the words that come are
those that a memory has for the requests, the stream has the bytes of the memory, each
descriptor as a frame; and a status is reported, with the tag and the errors of its
descriptor, only when the whole frame is in the FIFO or out. -/
theorem rdEngine_run (v : ℕ → WithRstn (RdEngineIn p)) (t : ℕ)
    (hfit : ∀ d ∈ rdDescs v t, d.Fits) :
    let s := (rdEngine p).resettable.state v t
    (rdDescs v t).flatMap RdDesc.bursts = rdBursts v t
        ++ (if s.request.arvalid then [s.request.ar] else []) ++ s.request.left ∧
      (∀ b ∈ rdBursts v t, p.Legal b) ∧
      rdStatus v t <+: (RdData.deal (rdDescs v t) (rdWords v t)).map RdData.statusOf ∧
      ∀ m : Memory, (rdWords v t).map Prod.fst <+: answers m (rdBursts v t) →
        (rdGiven v t).map RdBeat.out ++ s.heldOut <+: (rdDescs v t).flatMap (RdDesc.stream m) ∧
        ((rdDescs v t).take (rdStatus v t).length).flatMap (RdDesc.stream m)
          <+: (rdGiven v t).map RdBeat.out ++ s.heldOut := by
  exact ⟨rdDescs_bursts hfit, rdBursts_legal hfit, rdStatus_le hfit,
    fun _ hm => rdGiven_stream hfit hm⟩

end Runs

/-- Six bytes that begin with the last byte of a word. -/
def sixBytes : RdDesc fourBytes := ⟨3, 6, 7, ⟨0, 0, 0⟩⟩

/-- A memory whose bytes are their addresses. -/
def countUp : Memory := BitVec.ofNat 8

/-- The descriptor is offered, and its three words come from the fourth cycle on. -/
def readSix : ℕ → WithRstn (RdEngineIn fourBytes) := fun t =>
  ⟨true,
    { desc := sixBytes
      descValid := t == 1
      arready := true
      rdata := word countUp (4 * (t - 4)) 4
      rresp := 0
      rvalid := decide (4 ≤ t ∧ t < 7)
      mReady := true
      enable := true }⟩

theorem readSix_run : (rdStatus readSix 8).length = 1 ∧ sixBytes.stream countUp
    <+: (rdGiven readSix 8).map RdBeat.out
      ++ ((rdEngine fourBytes).resettable.state readSix 8).heldOut := by
  have hdescs : rdDescs readSix 8 = [sixBytes] := rfl
  have hstatus : (rdStatus readSix 8).length = 1 := by decide +kernel
  have hfit : ∀ d ∈ rdDescs readSix 8, d.Fits := by
    intro d hd
    rw [hdescs, List.mem_singleton] at hd
    exact hd ▸ ⟨by decide, by decide⟩
  have hwords : (rdWords readSix 8).map Prod.fst <+: answers countUp (rdBursts readSix 8) := by
    decide +kernel
  have hrun := ((rdEngine_run readSix 8 hfit).2.2.2 countUp hwords).2
  rw [hstatus, hdescs] at hrun
  exact ⟨hstatus, by simpa using hrun⟩

end AxisSystolic
