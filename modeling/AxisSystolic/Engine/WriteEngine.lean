import AxisSystolic.Engine.OutFifo
import AxisSystolic.Engine.WriteJobs
import AxisSystolic.Engine.WriteStatus
import AxisSystolic.Sync.Frames

/-!
# The write engine (`alex_axi_dma_wr.sv`)

The three parts of the engine together: the data, the responses and the output FIFO.
-/

namespace AxisSystolic

open Sync Mem

/-- The inputs of a cycle. -/
structure WrEngineIn (p : AxiDmaParams) where
  desc : WrDesc p
  descValid : Bool
  beat : WrAxis p
  valid : Bool
  awready : Bool
  wready : Bool
  bresp : BitVec 2
  bvalid : Bool
  enable : Bool

/-- The registers. -/
structure WrEngine (p : AxiDmaParams) where
  control : WrControl p
  status : WrStatus p
  out : OutFifo (WrBeat p)

variable {p : AxiDmaParams}

namespace WrEngine

variable (s : WrEngine p) (i : WrEngineIn p)

/-! ### Wires -/

def controlIn : WrControlIn p where
  desc := i.desc
  descValid := i.descValid
  beat := i.beat
  valid := i.valid
  awready := i.awready
  enable := i.enable
  wreadyInt := !s.out.halfFull
  activeAv := s.status.activeAv

def statusIn : WrStatusIn p where
  entry := s.control.entry (s.controlIn i)
  inc := s.control.incActive (s.controlIn i)
  bresp := i.bresp
  bvalid := i.bvalid

def outIn : OutFifoIn (WrBeat p) := ⟨s.control.pushed (s.controlIn i), i.wready⟩

/-- A clock edge. -/
def step : WrEngine p where
  control := s.control.step (s.controlIn i)
  status := s.status.step (s.statusIn i)
  out := s.out.step (s.outIn i)

/-- The descriptor that is taken in. -/
def descTaken : Option (WrDesc p) := s.control.descTaken (s.controlIn i)

/-- The beat that is taken. -/
def beatTaken : Option (WrAxis p) := s.control.beatTaken (s.controlIn i)

/-- The burst whose request is accepted. -/
def awTaken : Option AxiBurst := s.control.awTaken (s.controlIn i)

/-- The beat that is given out. -/
def given : Option (WrBeat p) := s.out.given (s.outIn i)

/-- The response that is taken. -/
def respTaken : Option (BitVec 2) := s.status.respTaken (s.statusIn i)

/-- The request that is not accepted yet. -/
def pending : List AxiBurst := if s.control.awvalid then [s.control.aw] else []

/-- What is held and not yet given out. -/
def heldOut : List (List (Option (BitVec 8)) × Bool) := s.out.held.map WrBeat.out

end WrEngine

/-- The clocked machine of `alex_axi_dma_wr`. -/
def wrEngine (p : AxiDmaParams) : Machine (WrEngine p) (WrEngineIn p) where
  reset := ⟨.reset p, .reset p, .reset ⟨0, 0, false⟩⟩
  step := WrEngine.step

/-! ### Room in the FIFO -/

namespace WrControl

variable {s : WrControl p} {i : WrControlIn p} {cur : WrLog p}

/-- What the states other than `start` do with the request. -/
theorem aw_step_of_other (hst : s.state ≠ .start) :
    (s.step i).awvalid = (s.awvalid && !i.awready) ∧ (s.step i).aw = s.aw := by
  cases h : s.state with
  | start => exact absurd h hst
  | write => cases hm : s.emits i <;> simp [step, h, hm, base]
  | finishBurst => cases hw : i.wreadyInt <;> simp [step, h, hw, base]
  | _ => simp [step, h, base]

/-- The next burst is requested, or the one that is waits until it is accepted. -/
theorem aw_step (s : WrControl p) (i : WrControlIn p) :
    (if s.awvalid then [s.aw] else []) ++ (s.log i).bursts
      = (s.awTaken i).toList ++ if (s.step i).awvalid then [(s.step i).aw] else [] := by
  by_cases hst : s.state = .start
  · cases hb : s.begins i with
    | true =>
      have hno : s.awvalid = false ∧ i.activeAv = true := by
        rw [begins, Bool.and_eq_true, Bool.and_eq_true, Bool.not_eq_true'] at hb
        exact hb.1
      simp [log, incActive, awTaken, step, hst, hb, hno]
    | false =>
      cases hv : s.awvalid <;> cases hr : i.awready <;>
        simp [log, incActive, awTaken, step, hst, hb, hv, hr]
  · obtain ⟨hvalid, haw⟩ := aw_step_of_other (i := i) hst
    rw [log, incActive_of_other hst, hvalid, haw, awTaken]
    cases s.awvalid <;> cases i.awready <;> rfl

/-- A descriptor is only taken in when the engine is idle. -/
theorem idle_of_ready (h : (s.step i).descReady = true) : (s.step i).state = .idle := by
  cases hst : s.state with
  | idle =>
    cases ha : s.accepts i <;> simp [step, hst, ha] at h ⊢
  | start => simp [step, hst, base] at h
  | write =>
    cases hm : s.emits i with
    | false => simp [step, hst, hm, base] at h
    | true =>
      simp [step, hst, hm] at h
      simp [step, hst, hm, h.1]
  | finishBurst =>
    cases hw : i.wreadyInt with
    | false => simp [step, hst, hw, base] at h
    | true =>
      simp [step, hst, hw] at h
      simp [step, hst, hw, h.1]
  | dropData =>
    simp [step, hst] at h
    simp [step, hst, h.1]

/-- The frame has ended, and what is left of it is still to go out. -/
def Tail (s : WrControl p) : Prop :=
  s.extraCycle = true ∧ (s.state = .start ∨ s.state = .write)

/-- A word goes out with a beat, as the tail, or when there is room. -/
theorem Current.takes_or_tail (h : Current s cur) {b : WrBeat p} (hb : s.pushed i = some b) :
    s.tready = true ∧ s.state = .write ∨ s.Tail ∨ i.wreadyInt = true := by
  cases h with
  | idle state tready => simp [pushed, state] at hb
  | start d fr bs es h => simp [pushed, h.state] at hb
  | write d fr bs es h =>
    have hm : s.emits i = true := by
      by_contra hno
      simp [pushed, h.state, hno] at hb
    rw [h.emits_eq, Bool.or_eq_true, takes, Bool.and_eq_true] at hm
    rcases hm with he | ht
    · exact Or.inr (Or.inl ⟨h.extra.trans he, Or.inr h.state⟩)
    · exact Or.inl ⟨ht.1, h.state⟩
  | finish x n h =>
    have hw : i.wreadyInt = true := by
      by_contra hno
      simp [pushed, h.state, hno] at hb
    exact Or.inr (Or.inr hw)
  | drop d fr es h => simp [pushed, h.state] at hb

/-- The tail only comes with a beat. -/
theorem Current.tail_step (h : Current s cur) (ht : (s.step i).Tail) :
    s.tready = true ∧ s.state = .write ∨ s.Tail ∧ s.pushed i = none := by
  obtain ⟨hextra, hstate⟩ := ht
  cases h with
  | idle state tready => simp [WrControl.step, state, base, flushSave] at hextra
  | start d fr bs es h =>
    have hsaves := h.saves_step i
    refine Or.inr ⟨⟨?_, Or.inl h.state⟩, by rw [pushed, h.state]⟩
    rwa [hsaves.extra, ← h.extra] at hextra
  | write d fr bs es h =>
    cases hm : s.emits i with
    | false =>
      have hwait := h.wait hm
      refine Or.inr ⟨⟨?_, Or.inr h.state⟩, by simp [pushed, h.state, hm]⟩
      rwa [hwait.extra, ← h.extra] at hextra
    | true =>
      cases hl : s.shiftTlast i with
      | true =>
        cases hlast : s.outputLastCycle <;> simp [WrControl.step, h.state, hm, hl, hlast] at hstate
      | false =>
        have htakes := (h.takes_of_more hm hl).2
        rw [takes, Bool.and_eq_true] at htakes
        exact Or.inl ⟨htakes.1, h.state⟩
  | finish x n h =>
    cases hw : i.wreadyInt <;> cases hl : s.outputLastCycle <;>
      simp [WrControl.step, h.state, hw, hl, base] at hstate
  | drop d fr es h =>
    cases hd : s.shiftTvalid i && s.shiftTlast i <;> simp [WrControl.step, h.state, hd] at hstate

/-- Beats are only asked for when there was room. -/
theorem wreadyInt_of_ready (ht : (s.step i).tready = true) (hst : (s.step i).state = .write) :
    i.wreadyInt = true := by
  cases h : s.state with
  | idle => simp [step, h, base] at ht
  | start =>
    simp [step, h] at ht
    exact ht.1.2
  | write =>
    cases hm : s.emits i with
    | false =>
      simp [step, h, hm] at ht
      exact ht.1.1
    | true =>
      cases hl : s.shiftTlast i with
      | true => simp [step, h, hm, hl] at ht
      | false =>
        cases hlast : s.outputLastCycle with
        | true =>
          simp [step, h, hm, hl, hlast] at hst
          split at hst <;> cases hst
        | false =>
          simp [step, h, hm, hl, hlast] at ht
          exact ht.1.1
  | finishBurst =>
    cases hw : i.wreadyInt with
    | false => simp [step, h, hw, base] at ht
    | true => rfl
  | dropData =>
    cases hd : s.shiftTvalid i && s.shiftTlast i <;> simp [step, h, hd] at hst

end WrControl

namespace WrEngine

variable {s : WrEngine p} {i : WrEngineIn p}

/-- The beats in the ring, by what the data part may do next. -/
structure Room (s : WrEngine p) : Prop where
  le : s.out.ring.count ≤ 19
  low : s.out.halfFull = false → s.out.ring.count ≤ 16
  tready : s.control.tready = true → s.control.state = .write → s.out.ring.count ≤ 17
  tail : s.control.Tail → s.out.ring.count ≤ 18

theorem room_reset : Room (wrEngine p).reset := by
  have hzero : (wrEngine p).reset.out.ring.count = 0 := OutFifo.count_reset _
  refine ⟨?_, ?_, ?_, ?_⟩ <;> rw [hzero]
  · exact Nat.zero_le _
  · exact fun _ => Nat.zero_le _
  · exact fun _ _ => Nat.zero_le _
  · exact fun _ => Nat.zero_le _

namespace Room

variable (h : Room s)

include h

/-- A beat that is put in finds room. -/
theorem pushed_eq : s.out.pushed (s.outIn i) = s.control.pushed (s.controlIn i) := by
  have hnot : s.out.full = false := by
    by_contra hf
    rw [Bool.not_eq_false, OutFifo.full_iff] at hf
    have := h.le
    omega
  rw [OutFifo.pushed, hnot]
  rfl

/-- What is held and what is put in is given out or held then. -/
theorem heldOut_step (i : WrEngineIn p) :
    s.heldOut ++ ((s.control.pushed (s.controlIn i)).map WrBeat.out).toList
      = (s.given i).toList.map WrBeat.out ++ (s.step i).heldOut := by
  have hheld := OutFifo.held_step (s := s.out) (i := s.outIn i) (Nat.le_trans h.le (by decide))
  have hmap := congrArg (List.map WrBeat.out) hheld
  rw [List.map_append, List.map_append, h.pushed_eq] at hmap
  have hpush : ((s.control.pushed (s.controlIn i)).map WrBeat.out).toList
      = (s.control.pushed (s.controlIn i)).toList.map WrBeat.out := by
    cases s.control.pushed (s.controlIn i) <;> rfl
  rw [hpush]
  exact hmap

protected theorem step {cur : WrLog p} (hc : WrControl.Current s.control cur) (i : WrEngineIn p) :
    Room (s.step i) := by
  have hle := h.le
  have hcount : (s.step i).out.ring.count
      ≤ s.out.ring.count + (s.control.pushed (s.controlIn i)).toList.length := by
    have := OutFifo.count_step (s := s.out) (i := s.outIn i) (by omega)
    rw [h.pushed_eq] at this
    exact Nat.le.intro this
  have hlen : (s.control.pushed (s.controlIn i)).toList.length ≤ 1 := by
    cases s.control.pushed (s.controlIn i) <;> simp
  have hlow : (s.controlIn i).wreadyInt = true → s.out.ring.count ≤ 16 := by
    intro hw
    refine h.low ?_
    simpa [controlIn] using hw
  refine ⟨?_, ?_, ?_, ?_⟩
  · cases hb : s.control.pushed (s.controlIn i) with
    | none =>
      rw [hb, Option.toList_none, List.length_nil] at hcount
      omega
    | some b =>
      rcases hc.takes_or_tail hb with ⟨ht, hst⟩ | ht | hw
      · have := h.tready ht hst
        omega
      · have := h.tail ht
        omega
      · have := hlow hw
        omega
  · intro hhalf
    have hnot : ¬2 ^ 4 ≤ s.out.ring.count := of_decide_eq_false hhalf
    omega
  · intro ht hst
    have := hlow (WrControl.wreadyInt_of_ready ht hst)
    omega
  · intro ht
    rcases hc.tail_step ht with ⟨htready, hst⟩ | ⟨htail, hnone⟩
    · have := h.tready htready hst
      omega
    · have := h.tail htail
      rw [hnone, Option.toList_none, List.length_nil] at hcount
      omega

end Room

/-! ### One cycle -/

/-- The sender has descriptors that fit, and beats that begin a stream of frames which suit
them. -/
structure Sends (frs : List (List (WrAxis p))) (ds : List (WrDesc p)) (bts : List (WrAxis p)) :
    Prop where
  fits : ∀ d ∈ ds, d.Fits
  frames : ∀ f ∈ frs, Complete f
  beats : bts <+: frs.flatten
  suits : ∀ x ∈ ds.zip frs, x.1.Suits x.2

/-- Descriptors `ds` and beats `bts` have been taken in, requests `aws` accepted, beats `gs`
given out and responses `rs` taken; `sts` are the status, with the one being reported. -/
structure Serves (ds : List (WrDesc p)) (bts : List (WrAxis p)) (aws : List AxiBurst)
    (gs : List (WrBeat p)) (rs : List (BitVec 2)) (sts : List (WrReport p)) (s : WrEngine p) :
    Prop where
  room : Room s
  ready : s.control.descReady = true → s.control.state = .idle
  parts : ∃ done cur es, (∀ x ∈ done, WrJob.Done x) ∧ WrControl.Current s.control cur ∧
    (⟨ds, bts, aws ++ s.pending, gs.map WrBeat.out ++ s.heldOut, es⟩ : WrLog p)
      = WrLog.jobs done ++ cur ∧
    WrStatus.Keeps (aws ++ s.pending).length es rs sts s.status

theorem serves_reset : Serves [] [] [] [] [] [] (wrEngine p).reset := by
  refine ⟨room_reset, nofun, [], WrLog.nil, [], nofun, .idle rfl rfl, ?_, WrStatus.keeps_reset⟩
  have hheld : (wrEngine p).reset.heldOut = [] := by
    show (OutFifo.reset _).held.map _ = []
    rw [OutFifo.held_reset]
    rfl
  rw [hheld]
  rfl

variable {frs : List (List (WrAxis p))} {ds ds' : List (WrDesc p)} {bts bts' : List (WrAxis p)}
  {aws : List AxiBurst} {gs : List (WrBeat p)} {rs : List (BitVec 2)} {sts : List (WrReport p)}

theorem Sends.mono (h : Sends frs (ds ++ ds') (bts ++ bts')) : Sends frs ds bts := by
  refine ⟨fun d hd => h.fits d (List.mem_append_left _ hd), h.frames,
    (List.prefix_append _ _).trans h.beats, fun x hx => h.suits x ?_⟩
  obtain ⟨k, hk⟩ := List.mem_iff_getElem?.mp hx
  rw [List.getElem?_zip_eq_some] at hk
  refine List.mem_iff_getElem?.mpr ⟨k, List.getElem?_zip_eq_some.mpr ⟨?_, hk.2⟩⟩
  rw [List.getElem?_append_left (List.getElem?_eq_some_iff.mp hk.1).1]
  exact hk.1

/-- The beats are those of the jobs that are done, and of the next frame. -/
theorem Sends.rest {done : List (WrJob p)} {cur : WrLog p} (h : Sends frs ds bts)
    (hdone : ∀ x ∈ done, WrJob.Done x) (hframe : Frame cur.beats)
    (hbts : bts = done.flatMap WrJob.frame ++ cur.beats) :
    ∃ rest, frs = done.map WrJob.frame ++ rest ∧ cur.beats <+: rest.headD [] := by
  refine split_frames ?_ h.frames hframe ?_
  · intro f hf
    obtain ⟨x, hx, rfl⟩ := List.mem_map.mp hf
    exact (hdone x hx).frame
  · rw [← List.flatMap_def, ← hbts]
    exact h.beats

theorem Sends.whole (h : Sends frs ds bts) : ∀ b ∈ bts, WrAxis.Whole b := by
  intro b hb
  obtain ⟨f, hf, hbf⟩ := List.mem_flatten.mp (h.beats.subset hb)
  exact (h.frames f hf).whole b hbf

/-- A frame that has come whole suits the descriptor it came with. -/
theorem Sends.suits_of_complete {done : List (WrJob p)} {cur : WrLog p} {d : WrDesc p}
    (h : Sends frs ds bts) (hdone : ∀ x ∈ done, WrJob.Done x) (hcur : Complete cur.beats)
    (hbts : bts = done.flatMap WrJob.frame ++ cur.beats)
    (hds : ds = done.map WrJob.desc ++ d :: ds') : d.Suits cur.beats := by
  obtain ⟨rest, hfrs, hhead⟩ := h.rest hdone hcur.toFrame hbts
  cases rest with
  | nil => exact absurd (List.prefix_nil.mp hhead) hcur.ne_nil
  | cons f rest =>
    have hf := h.frames f (by rw [hfrs]; simp)
    rw [hcur.eq_of_le hf.toFrame hhead]
    refine h.suits (d, f) ?_
    rw [hds, hfrs, List.zip_append (by simp)]
    simp

/-- A job that is done has made an entry for each of its bursts. -/
theorem length_entries {done : List (WrJob p)} (hdone : ∀ x ∈ done, WrJob.Done x) :
    (done.flatMap WrJob.entries).length = (done.flatMap WrJob.bursts).length := by
  rw [List.length_flatMap, List.length_flatMap,
    List.map_congr_left fun x hx => (hdone x hx).length_entries]

/-- A burst that is begun is waiting to be requested. -/
theorem length_begun (s : WrEngine p) (i : WrEngineIn p) :
    ((aws ++ (s.awTaken i).toList) ++ (s.step i).pending).length
      = (aws ++ s.pending).length + if (s.statusIn i).inc then 1 else 0 := by
  have haw : s.pending ++ (s.control.log (s.controlIn i)).bursts
      = (s.awTaken i).toList ++ (s.step i).pending := WrControl.aw_step s.control (s.controlIn i)
  rw [List.append_assoc, ← haw, ← List.append_assoc, List.length_append]
  congr 1
  show (if _ then [_] else []).length = _
  cases h : (s.statusIn i).inc <;> simp [statusIn] at h <;> simp [h]

theorem activeAv_of_inc (hinc : (s.statusIn i).inc = true) : s.status.activeAv = true := by
  rw [statusIn, WrControl.incActive, WrControl.begins, Bool.and_eq_true, Bool.and_eq_true,
    Bool.and_eq_true] at hinc
  exact hinc.2.1.2

theorem Serves.step (h : Serves ds bts aws gs rs sts s) (i : WrEngineIn p)
    (hs : Sends frs (ds ++ (s.descTaken i).toList) (bts ++ (s.beatTaken i).toList)) :
    Serves (ds ++ (s.descTaken i).toList) (bts ++ (s.beatTaken i).toList)
      (aws ++ (s.awTaken i).toList) (gs ++ (s.given i).toList) (rs ++ (s.respTaken i).toList)
      (sts ++ ((s.step i).status.status).toList) (s.step i) := by
  obtain ⟨hroom, hready, done, cur, es, hdone, hcur, hlog, hkeeps⟩ := h
  have hwhole : ∀ b ∈ s.control.beatTaken (s.controlIn i), WrAxis.Whole b := fun b hb =>
    hs.whole b (List.mem_append_right _ (Option.mem_toList.mpr hb))
  have hfit : ∀ d ∈ s.control.descTaken (s.controlIn i), d.Fits := fun d hd =>
    hs.fits d (List.mem_append_right _ (Option.mem_toList.mpr hd))
  -- what the cycle adds to what has been recorded
  have haw : s.pending ++ (s.control.log (s.controlIn i)).bursts
      = (s.awTaken i).toList ++ (s.step i).pending := WrControl.aw_step s.control (s.controlIn i)
  have hout := hroom.heldOut_step i
  have hlog' : (⟨ds ++ (s.descTaken i).toList, bts ++ (s.beatTaken i).toList,
      (aws ++ (s.awTaken i).toList) ++ (s.step i).pending,
      (gs ++ (s.given i).toList).map WrBeat.out ++ (s.step i).heldOut,
      es ++ (s.control.entry (s.controlIn i)).toList⟩ : WrLog p)
      = WrLog.jobs done ++ (cur ++ s.control.log (s.controlIn i)) := by
    rw [← WrLog.append_assoc, ← hlog, WrLog.append_def, List.append_assoc, ← haw, List.map_append,
      List.append_assoc, ← hout, ← List.append_assoc, ← List.append_assoc]
    rfl
  have hframe := hcur.frame_next hwhole
  have hsuit : ∀ d, cur.descs = [d] →
      frameEnded (cur ++ s.control.log (s.controlIn i)).beats = true →
      d.Suits (cur ++ s.control.log (s.controlIn i)).beats := by
    intro d hd hended
    have hds : ds ++ (s.descTaken i).toList = done.map WrJob.desc
        ++ (cur.descs ++ (s.control.log (s.controlIn i)).descs) := congrArg WrLog.descs hlog'
    rw [hd] at hds
    exact hs.suits_of_complete hdone ⟨hframe, hended⟩ (congrArg WrLog.beats hlog') hds
  have hnext := hcur.step hready hfit hwhole hsuit
  have hentry : (s.control.entry (s.controlIn i)).isSome = true →
      es.length < (aws ++ s.pending).length := by
    intro he
    have hlt := hcur.entry_lt he
    have hes : es = done.flatMap WrJob.entries ++ cur.entries := congrArg WrLog.entries hlog
    have hbs : aws ++ s.pending = done.flatMap WrJob.bursts ++ cur.bursts :=
      congrArg WrLog.bursts hlog
    rw [hes, hbs, List.length_append, List.length_append, length_entries hdone]
    omega
  have hkeeps' := hkeeps.step (i := s.statusIn i) activeAv_of_inc hentry
  rw [← length_begun] at hkeeps'
  refine ⟨hroom.step hcur i, WrControl.idle_of_ready, ?_⟩
  rcases hnext with hcur' | ⟨x, hx, heq, hidle⟩
  · exact ⟨done, _, _, hdone, hcur', hlog', hkeeps'⟩
  · refine ⟨done ++ [x], WrLog.nil, _, ?_, hidle, ?_, hkeeps'⟩
    · intro y hy
      rcases List.mem_append.mp hy with hy | hy
      · exact hdone y hy
      · exact List.mem_singleton.mp hy ▸ hx
    · rw [WrLog.append_nil, WrLog.jobs_append, ← heq]
      exact hlog'

end WrEngine

end AxisSystolic
