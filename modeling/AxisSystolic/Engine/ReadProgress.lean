import AxisSystolic.Engine.ReadEngine

/-!
# The read engine always finishes

The memory and the stream may keep the engine waiting, but not for ever: requests are
accepted again and again, beats are taken again and again, and a word that is asked for is
offered sooner or later (`RdGoes`).  The engine may keep the memory waiting only while its
FIFO is half full, and that one runs down (`OutFifo.rank_step`).

So each descriptor that has been taken in is finished: all of its bursts are requested
(`exists_requested`), all of its words come (`exists_received`), its status is reported
(`exists_reported`) and its beats are given out (`exists_given`).
-/

namespace AxisSystolic

open Sync Mem

variable {p : AxiDmaParams}

/-! ### Words that are still to come -/

theorem RdDesc.length_words (d : RdDesc p) : d.words.length = d.inWords := List.length_range'

/-- The words of all of some descriptors. -/
def needed (ds : List (RdDesc p)) : ℕ := (ds.flatMap RdDesc.words).length

theorem needed_append (ds ds' : List (RdDesc p)) : needed (ds ++ ds') = needed ds + needed ds' := by
  rw [needed, List.flatMap_append, List.length_append, needed, needed]

theorem needed_singleton (d : RdDesc p) : needed [d] = d.inWords := by
  rw [needed, List.flatMap_singleton, d.length_words]

theorem needed_mono {ds ds' : List (RdDesc p)} (h : ds <+: ds') : needed ds ≤ needed ds' := by
  obtain ⟨more, rfl⟩ := h
  rw [needed_append]
  exact Nat.le_add_right _ _

/-- No descriptor is without words. -/
theorem needed_lt {ds ds' : List (RdDesc p)} (h : ds <+: ds') (hlt : ds.length < ds'.length) :
    needed ds < needed ds' := by
  obtain ⟨more, rfl⟩ := h
  cases more with
  | nil => exact absurd hlt (by rw [List.append_nil]; exact Nat.lt_irrefl _)
  | cons d more =>
    have hd : 0 < d.inWords := Nat.succ_pos _
    rw [needed_append, ← List.singleton_append, needed_append, needed_singleton]
    omega

namespace RdData

theorem needed_done {done : List (Job p)} (all : ∀ x ∈ done, x.2.length = x.1.inWords) :
    needed (done.map Prod.fst) = (done.flatMap Prod.snd).length := by
  induction done with
  | nil => rfl
  | cons x done ih =>
    rw [List.map_cons, ← List.singleton_append, needed_append, needed_singleton,
      ih fun y hy => all y (List.mem_cons_of_mem _ hy), List.flatMap_cons, List.length_append,
      all x List.mem_cons_self]

variable {s : RdData p} {started : List (RdDesc p)} {rs : List (Word p)} {outs : List (RdOut p)}
  {sts : List (BitVec p.tagWidth × BitVec 4)}

/-- While words are to come, they are being received or will be. -/
theorem Phase.of_needed (h : Phase s started rs outs sts) {pend : List (RdDesc p)}
    (hlt : rs.length < needed (started ++ pend)) :
    Resting s ∧ pend ≠ [] ∨ ∃ d ws k, Reading d ws k s ∧ d.Fits := by
  cases h with
  | rest done h all hd hr ho hs =>
    refine Or.inl ⟨h, ?_⟩
    rintro rfl
    rw [List.append_nil, hd, hr, needed_done all] at hlt
    exact absurd hlt (Nat.lt_irrefl _)
  | read done d ws k h hfit all hd hr ho hs =>
    exact Or.inr ⟨d, ws, k, h, hfit⟩

/-- When the words of `ds` have come, their status are out, or the last one comes next. -/
theorem Phase.of_received (h : Phase s started rs outs sts) {ds all : List (RdDesc p)}
    (hds : ds <+: all) (hstarted : started <+: all) (hle : needed ds ≤ rs.length) :
    ds.length ≤ sts.length ∨ ds.length ≤ sts.length + 1 ∧
      ∃ d ws k, Reading d ws k s ∧ d.Fits ∧ ws.length = d.inWords := by
  cases h with
  | rest done h hall hd hr ho hs =>
    rw [hs, List.length_map]
    refine Or.inl (Nat.le_of_not_lt fun hlt => ?_)
    have hlen : started.length < ds.length := by rwa [hd, List.length_map]
    have := needed_lt (List.prefix_of_prefix_length_le hstarted hds (Nat.le_of_lt hlen)) hlen
    rw [hd, needed_done hall, ← hr] at this
    omega
  | read done d ws k h hfit hall hd hr ho hs =>
    have hneeded : needed started = (done.flatMap Prod.snd).length + d.inWords := by
      rw [hd, needed_append, needed_singleton, needed_done hall]
    have hlength : started.length = done.length + 1 := by
      rw [hd, List.length_append, List.length_map, List.length_singleton]
    rw [hr, List.length_append] at hle
    rw [hs, List.length_map]
    have hmax := h.le
    rcases Nat.lt_or_ge done.length ds.length with hlt | hge
    · have hpre : started <+: ds :=
        List.prefix_of_prefix_length_le hstarted hds (by omega)
      have hmono := needed_mono hpre
      refine Or.inr ⟨?_, d, ws, k, h, hfit, by omega⟩
      by_contra hmore
      have := needed_lt hpre (by omega)
      omega
    · exact Or.inl hge

end RdData

namespace RdEngine

variable {s : RdEngine p} {ds : List (RdDesc p)} {ars : List AxiBurst}
  {rs : List (RdData.Word p)} {gs : List (RdBeat p)} {sts : List (BitVec p.tagWidth × BitVec 4)}

theorem Serves.next_of_resting (h : Serves ds ars rs gs sts s) (hfit : ∀ d ∈ ds, d.Fits)
    (hrest : RdData.Resting s.data) (hlt : rs.length < needed ds) (i : RdEngineIn p) :
    ∃ d, RdData.Reading d [] 0 (s.step i).data := by
  obtain ⟨_, started, pend, outs, hds, hreq, hphase, _⟩ := h
  rw [hds] at hlt
  have hpend : pend.toList ≠ [] := by
    rcases hphase.of_needed hlt with ⟨_, hp⟩ | ⟨d, ws, k, hread, _⟩
    · exact hp
    · exact absurd (hread.state.symm.trans hrest.state) nofun
  cases pend with
  | none => exact absurd rfl hpend
  | some d =>
    have hd : d ∈ ds := by
      rw [hds]
      exact List.mem_append_right _ (List.mem_singleton_self d)
    exact ⟨d, hrest.begin (i := s.dataIn i) hreq.valid (hreq.cmd d rfl) (hfit d hd)⟩

/-- While words are to come they are being received, now or soon. -/
theorem Serves.next (h : Serves ds ars rs gs sts s) (hfit : ∀ d ∈ ds, d.Fits)
    (hlt : rs.length < needed ds) (i : RdEngineIn p) :
    (∃ d ws k, RdData.Reading d ws k s.data ∧ ws.length < d.inWords) ∨
      (∃ d, RdData.Reading d [] 0 (s.step i).data) ∨ RdData.Resting (s.step i).data := by
  have h' := h
  obtain ⟨_, started, pend, outs, hds, hreq, hphase, _⟩ := h
  rcases hphase.of_needed (hds ▸ hlt) with ⟨hrest, _⟩ | ⟨d, ws, k, hread, hd⟩
  · exact Or.inr (Or.inl (h'.next_of_resting hfit hrest hlt i))
  · rcases Nat.lt_or_eq_of_le hread.le with hl | hl
    · exact Or.inl ⟨d, ws, k, hread, hl⟩
    · obtain ⟨hm, hb, hk⟩ := hread.tail hd hl (s.dataIn i)
      exact Or.inr (Or.inr (hread.push_last hd hm hb hk).2.1)

end RdEngine

/-! ### Runs -/

/-- The engine is not reset, its descriptors can be served, and neither the memory nor the
stream keeps it waiting for ever. -/
structure RdGoes (v : ℕ → WithRstn (RdEngineIn p)) : Prop where
  rstn : ∀ t, (v t).rstn = true
  fits : ∀ t, ∀ d ∈ rdDescs v t, d.Fits
  arready : ∀ t, ∃ m, t ≤ m ∧ (v m).val.arready = true
  mReady : ∀ t, ∃ m, t ≤ m ∧ (v m).val.mReady = true
  answered : ∀ t, (rdWords v t).length < ((rdBursts v t).flatMap p.words).length →
    ∃ m, t ≤ m ∧ (v m).val.rvalid = true

section Runs

variable {v : ℕ → WithRstn (RdEngineIn p)}

/-- The registers in cycle `t`. -/
abbrev rdState (v : ℕ → WithRstn (RdEngineIn p)) (t : ℕ) : RdEngine p :=
  (rdEngine p).resettable.state v t

/-- The beats that are out or held. -/
def rdStored (v : ℕ → WithRstn (RdEngineIn p)) (t : ℕ) : List (RdOut p) :=
  (rdGiven v t).map RdBeat.out ++ (rdState v t).heldOut

namespace RdGoes

variable (h : RdGoes v)

include h

theorem state_succ (t : ℕ) : rdState v (t + 1) = (rdState v t).step (v t).val :=
  Machine.resettable_state_succ_of_rstn (h.rstn t)

theorem serves (t : ℕ) : RdEngine.Serves (rdDescs v t) (rdBursts v t) (rdWords v t) (rdGiven v t)
    (rdStatus v t ++ ((rdState v t).status).toList) (rdState v t) :=
  serves_run v t (h.fits t)

theorem descs_mono {t m : ℕ} (htm : t ≤ m) : rdDescs v t <+: rdDescs v m :=
  Machine.sinceReset_mono h.rstn _ htm

/-! ### Requests -/

/-- The bursts that are requested begin those of the descriptors. -/
theorem bursts_le (t : ℕ) : rdBursts v t <+: (rdDescs v t).flatMap RdDesc.bursts := by
  obtain ⟨_, started, pend, outs, _, hreq, _, _⟩ := h.serves t
  rw [hreq.bursts, List.append_assoc]
  exact List.prefix_append _ _

/-- A request that is offered is accepted. -/
theorem exists_accepted {t : ℕ} (hv : (rdState v t).request.arvalid = true) :
    ∃ m, t ≤ m ∧ (rdBursts v t).length < (rdBursts v m).length := by
  obtain ⟨m, hm, ⟨_, hvm⟩, hr⟩ := stays_until
    (P := fun m => t ≤ m ∧ (rdState v m).request.arvalid = true)
    (A := fun m => (v m).val.arready = true) (fun m hP hA => by
      refine ⟨Nat.le_succ_of_le hP.1, ?_⟩
      rw [h.state_succ]
      exact (RdRequest.step_of_stall hP.2 (Bool.eq_false_iff.mpr hA)).1) h.arready ⟨le_rfl, hv⟩
  have hmore : rdBursts v (m + 1) = rdBursts v m ++ [(rdState v m).request.ar] := by
    rw [rdBursts, rdBursts, Machine.sinceReset_succ_of_rstn (h.rstn m)]
    simp [RdEngine.arTaken, RdRequest.arTaken, RdEngine.requestIn, hvm, hr]
  have hmono : (rdBursts v t).length ≤ (rdBursts v m).length :=
    (Machine.sinceReset_mono h.rstn _ hm).length_le
  refine ⟨m + 1, Nat.le_succ_of_le hm, ?_⟩
  rw [hmore, List.length_append, List.length_singleton]
  omega

/-- **All bursts of the descriptors are requested.** -/
theorem exists_requested (t : ℕ) :
    ∃ m, t ≤ m ∧ (rdDescs v t).flatMap RdDesc.bursts <+: rdBursts v m := by
  obtain ⟨m, hm, hle⟩ := grows_to (f := fun m => (rdBursts v m).length)
    (N := ((rdDescs v t).flatMap RdDesc.bursts).length) (n := t) (fun m hm hlt => by
      cases hv : (rdState v m).request.arvalid with
      | true => exact h.exists_accepted hv
      | false =>
        -- a burst that is left is offered in the next cycle
        obtain ⟨_, started, pend, outs, _, hreq, _, _⟩ := h.serves m
        have hlen := congrArg List.length hreq.bursts
        have hmono := ((h.descs_mono hm).flatMap RdDesc.bursts).length_le
        have hleft : (rdState v m).request.left ≠ [] := by
          intro h0
          rw [hv, h0] at hlen
          simp only [Bool.false_eq_true, if_false, List.append_nil] at hlen
          omega
        have hnext : (rdState v (m + 1)).request.arvalid = true := by
          rw [h.state_succ]
          exact RdRequest.arvalid_of_left hleft hv
        obtain ⟨k, hk, hmore⟩ := h.exists_accepted hnext
        have hgrows : (rdBursts v m).length ≤ (rdBursts v (m + 1)).length :=
          (Machine.sinceReset_mono h.rstn _ (Nat.le_succ m)).length_le
        exact ⟨k, by omega, by omega⟩)
  have hall := (h.descs_mono hm).flatMap RdDesc.bursts
  exact ⟨m, hm, List.prefix_of_prefix_length_le hall (h.bursts_le m) hle⟩

/-! ### Words -/

/-- The words that are asked for are among those of the descriptors. -/
theorem asked_le (t : ℕ) : (rdBursts v t).flatMap p.words <+: (rdDescs v t).flatMap RdDesc.words := by
  have hle := (h.bursts_le t).flatMap p.words
  rw [List.flatMap_assoc, List.flatMap_congr fun d hd => (h.fits t d hd).words_eq] at hle
  exact hle

theorem rdWords_succ (t : ℕ) :
    rdWords v (t + 1) = rdWords v t ++ ((rdState v t).rTaken (v t).val).toList :=
  Machine.sinceReset_succ_of_rstn (h.rstn t)

/-- While words are to come, the engine is ready for them, now or soon. -/
theorem exists_reading {t : ℕ} (hlt : ∀ m, t ≤ m → (rdWords v m).length < needed (rdDescs v m)) :
    ∃ m, t ≤ m ∧ ∃ d ws k, RdData.Reading d ws k (rdState v m).data ∧ ws.length < d.inWords := by
  rcases (h.serves t).next (h.fits t) (hlt t le_rfl) (v t).val with hnow | ⟨d, hnext⟩ | hrest
  · exact ⟨t, le_rfl, hnow⟩
  · rw [← h.state_succ] at hnext
    exact ⟨t + 1, Nat.le_succ t, d, [], 0, hnext, Nat.succ_pos _⟩
  · rw [← h.state_succ] at hrest
    obtain ⟨d, hnext⟩ := (h.serves (t + 1)).next_of_resting (h.fits (t + 1)) hrest
      (hlt (t + 1) (Nat.le_succ t)) (v (t + 1)).val
    rw [← h.state_succ] at hnext
    exact ⟨t + 2, by omega, d, [], 0, hnext, Nat.succ_pos _⟩

/-- A FIFO that nothing is put into lets the engine go on. -/
theorem exists_low {t : ℕ}
    (hno : ∀ m, t ≤ m → (rdState v m).data.pushed ((rdState v m).dataIn (v m).val) = none) :
    ∃ m, t ≤ m ∧ ∀ k, m ≤ k → (rdState v (k + 1)).out.halfFull = false := by
  have hstep : ∀ m, t ≤ m → (rdState v (m + 1)).out.rank ≤ (rdState v m).out.rank ∧
      ((v m).val.mReady = true → (rdState v m).out.rank ≠ 0 →
        (rdState v (m + 1)).out.rank < (rdState v m).out.rank) := by
    intro m hm
    have hroom := (h.serves m).room
    rw [h.state_succ]
    exact OutFifo.rank_step (i := (rdState v m).outIn (v m).val)
      (Nat.le_trans hroom.le (by decide)) (hroom.pushed_eq.trans (hno m hm))
  obtain ⟨m, _, hzero, _⟩ := @runs_down (fun k => (rdState v (t + k)).out.rank)
    (fun k _ => (hstep (t + k) (by omega)).1) (fun k => by
      obtain ⟨m, hm, hr⟩ := h.mReady (t + k)
      refine ⟨m - t, by omega, ?_⟩
      have := (hstep m (by omega)).2 hr
      rwa [show t + (m - t) = m by omega, show t + (m - t + 1) = m + 1 by omega]) 0
  have hstays : ∀ k, t + m ≤ k → (rdState v k).out.rank = 0 := by
    intro k hk
    induction k, hk using Nat.le_induction with
    | base => exact hzero
    | succ k hk ih => exact Nat.le_zero.mp (ih ▸ (hstep k (by omega)).1)
  refine ⟨t + m, by omega, fun k hk => ?_⟩
  have hrank := hstays k hk
  rw [OutFifo.rank] at hrank
  have hcount : (rdState v k).out.ring.count = 0 := by omega
  have hnot : ¬2 ^ 4 ≤ (rdState v k).out.ring.count := by
    rw [hcount]
    decide
  rw [h.state_succ]
  exact decide_eq_false hnot

/-- A word that is asked for comes. -/
theorem exists_word {t : ℕ} (hlt : (rdWords v t).length < ((rdBursts v t).flatMap p.words).length) :
    ∃ m, t ≤ m ∧ (rdWords v t).length < (rdWords v m).length := by
  by_contra hno
  have hsame : ∀ m, t ≤ m → (rdWords v m).length = (rdWords v t).length := by
    intro m hm
    refine Nat.le_antisymm (Nat.le_of_not_lt fun hmore => hno ⟨m, hm, hmore⟩) ?_
    exact (Machine.sinceReset_mono h.rstn _ hm).length_le
  have htakes : ∀ m, t ≤ m → (rdState v m).data.takes ((rdState v m).dataIn (v m).val) = false := by
    intro m hm
    by_contra ht
    rw [Bool.not_eq_false] at ht
    have hmore := congrArg List.length (h.rdWords_succ m)
    rw [RdEngine.rTaken, RdData.rTaken, if_pos ht, List.length_append, hsame m hm,
      hsame (m + 1) (Nat.le_succ_of_le hm)] at hmore
    exact absurd hmore (Nat.ne_of_lt (Nat.lt_succ_self _))
  have hneeded : ∀ m, t ≤ m → (rdWords v m).length < needed (rdDescs v m) := by
    intro m hm
    rw [hsame m hm]
    exact Nat.lt_of_lt_of_le hlt (Nat.le_trans (h.asked_le t).length_le
      (needed_mono (h.descs_mono hm)))
  obtain ⟨n, hn, d, ws, k, hread, hshort⟩ := h.exists_reading hneeded
  -- from `n` on the engine stands still
  have hmoves : ∀ m, t ≤ m → RdData.Reading d ws k (rdState v m).data →
      (rdState v m).data.moves ((rdState v m).dataIn (v m).val) = false := by
    intro m hm hread
    rw [RdData.moves, htakes m hm, hread.active, decide_eq_true hshort]
    rfl
  have hstands : ∀ m, n ≤ m → RdData.Reading d ws k (rdState v m).data := by
    intro m hm
    induction m, hm using Nat.le_induction with
    | base => exact hread
    | succ m hm ih =>
      rw [h.state_succ]
      exact ih.stall (hmoves m (by omega) ih)
  have hpushed : ∀ m, n ≤ m →
      (rdState v m).data.pushed ((rdState v m).dataIn (v m).val) = none := by
    intro m hm
    simp [RdData.pushed, hmoves m (by omega) (hstands m hm)]
  obtain ⟨l, hl, hlow⟩ := h.exists_low hpushed
  -- so it becomes ready, and stays so
  have hrready : ∀ m, l + 1 ≤ m → (rdState v (m + 1)).data.rready = true := by
    intro m hm
    have hreadm := hstands m (by omega)
    have hhalf := hlow (m - 1) (by omega)
    rw [Nat.sub_add_cancel (by omega)] at hhalf
    have hready : ((rdState v m).dataIn (v m).val).treadyInt = true := by
      rw [RdEngine.dataIn, hhalf]
      rfl
    rw [h.state_succ]
    exact hreadm.rready_of_stall (hmoves m (by omega) hreadm) hshort hready
  have hstill : (rdWords v (l + 2)).length < ((rdBursts v (l + 2)).flatMap p.words).length := by
    have hmono : rdBursts v t <+: rdBursts v (l + 2) :=
      Machine.sinceReset_mono h.rstn _ (by omega)
    rw [hsame (l + 2) (by omega)]
    exact Nat.lt_of_lt_of_le hlt (hmono.flatMap p.words).length_le
  obtain ⟨m, hm, hvalid⟩ := h.answered (l + 2) hstill
  have hr := hrready (m - 1) (by omega)
  rw [Nat.sub_add_cancel (by omega)] at hr
  have ht := htakes m (by omega)
  rw [RdData.takes, hr, Bool.true_and] at ht
  exact absurd (hvalid.symm.trans ht) Bool.true_eq_false.mp

/-- **All words of the descriptors come.** -/
theorem exists_received (t : ℕ) : ∃ m, t ≤ m ∧ needed (rdDescs v t) ≤ (rdWords v m).length := by
  obtain ⟨n, hn, hall⟩ := h.exists_requested t
  have hasked : ∀ m, n ≤ m → needed (rdDescs v t) ≤ ((rdBursts v m).flatMap p.words).length := by
    intro m hm
    have hmono : rdBursts v n <+: rdBursts v m := Machine.sinceReset_mono h.rstn _ hm
    have hle := ((hall.trans hmono).flatMap p.words).length_le
    rw [List.flatMap_assoc, List.flatMap_congr fun d hd => (h.fits t d hd).words_eq] at hle
    exact hle
  obtain ⟨m, hm, hle⟩ := grows_to (f := fun m => (rdWords v m).length)
    (N := needed (rdDescs v t)) (n := n) fun m hm hlt =>
      h.exists_word (Nat.lt_of_lt_of_le hlt (hasked m hm))
  exact ⟨m, Nat.le_trans hn hm, hle⟩

/-! ### Status and beats -/

theorem rdStatus_succ (t : ℕ) :
    rdStatus v (t + 1) = rdStatus v t ++ ((rdState v t).status).toList :=
  Machine.sinceReset_succ_of_rstn (h.rstn t)

/-- **The status of the descriptors are reported.** -/
theorem exists_reported (t : ℕ) : ∃ m, t ≤ m ∧ (rdDescs v t).length ≤ (rdStatus v m).length := by
  obtain ⟨m, hm, hle⟩ := h.exists_received t
  obtain ⟨_, started, pend, outs, hds, hreq, hphase, _⟩ := h.serves m
  have hstarted : started <+: rdDescs v m := by
    rw [hds]
    exact List.prefix_append _ _
  rcases hphase.of_received (h.descs_mono hm) hstarted hle with hout | ⟨hout, d, ws, k, hread, hd, hl⟩
  · rw [← h.rdStatus_succ] at hout
    exact ⟨m + 1, Nat.le_succ_of_le hm, hout⟩
  · -- the last beat goes out in this cycle
    obtain ⟨hmoves, hb, hk⟩ := hread.tail hd hl ((rdState v m).dataIn (v m).val)
    have hvalid := (hread.push_last hd hmoves hb hk).2.2.1
    have hstatus : ((rdState v (m + 1)).status).toList.length = 1 := by
      rw [h.state_succ, RdEngine.status, RdData.status]
      rw [RdEngine.step, hvalid]
      rfl
    refine ⟨m + 2, by omega, ?_⟩
    rw [h.rdStatus_succ (m + 1), List.length_append, hstatus, h.rdStatus_succ m]
    exact hout

theorem rdStored_mono {t m : ℕ} (htm : t ≤ m) : rdStored v t <+: rdStored v m := by
  induction m, htm using Nat.le_induction with
  | base => exact List.prefix_refl _
  | succ m _ ih =>
    refine ih.trans ?_
    have hsucc : rdGiven v (m + 1) = rdGiven v m ++ ((rdState v m).given (v m).val).toList :=
      Machine.sinceReset_succ_of_rstn (h.rstn m)
    rw [rdStored, rdStored, hsucc, List.map_append, List.append_assoc,
      List.prefix_append_right_inj, h.state_succ m, ← (h.serves m).room.heldOut_step]
    exact List.prefix_append _ _

/-- A beat that is offered is taken. -/
theorem exists_beat {t : ℕ} (hv : (rdState v t).out.mValid = true) :
    ∃ m, t ≤ m ∧ (rdGiven v t).length < (rdGiven v m).length := by
  obtain ⟨m, hm, ⟨_, hvm⟩, hr⟩ := stays_until
    (P := fun m => t ≤ m ∧ (rdState v m).out.mValid = true)
    (A := fun m => (v m).val.mReady = true) (fun m hP hA => by
      refine ⟨Nat.le_succ_of_le hP.1, ?_⟩
      rw [h.state_succ]
      exact (OutFifo.step_of_stall (i := (rdState v m).outIn (v m).val) hP.2
        (Bool.eq_false_iff.mpr hA)).1) h.mReady ⟨le_rfl, hv⟩
  have hmore : (rdGiven v (m + 1)).length = (rdGiven v m).length + 1 := by
    rw [rdGiven, rdGiven, Machine.sinceReset_succ_of_rstn (h.rstn m), List.length_append]
    simp [RdEngine.given, OutFifo.given, RdEngine.outIn, hvm, hr]
  have hmono : (rdGiven v t).length ≤ (rdGiven v m).length :=
    (Machine.sinceReset_mono h.rstn _ hm).length_le
  exact ⟨m + 1, Nat.le_succ_of_le hm, by omega⟩

/-- **What is held is given out.** -/
theorem exists_given (t : ℕ) : ∃ m, t ≤ m ∧ rdStored v t <+: (rdGiven v m).map RdBeat.out := by
  obtain ⟨m, hm, hle⟩ := grows_to (f := fun m => (rdGiven v m).length)
    (N := (rdStored v t).length) (n := t) (fun m hm hlt => by
      have hmono := (h.rdStored_mono hm).length_le
      have hheld : (rdState v m).out.held ≠ [] := by
        intro h0
        have hall : rdStored v m = (rdGiven v m).map RdBeat.out := by
          rw [rdStored, RdEngine.heldOut, h0]
          exact List.append_nil _
        rw [hall, List.length_map] at hmono
        omega
      cases hv : (rdState v m).out.mValid with
      | true => exact h.exists_beat hv
      | false =>
        have hnext : (rdState v (m + 1)).out.mValid = true := by
          rw [h.state_succ]
          exact OutFifo.mValid_step hv hheld
        obtain ⟨k, hk, hmore⟩ := h.exists_beat hnext
        have hgrows : (rdGiven v m).length ≤ (rdGiven v (m + 1)).length :=
          (Machine.sinceReset_mono h.rstn _ (Nat.le_succ m)).length_le
        exact ⟨k, by omega, by omega⟩)
  refine ⟨m, hm, List.prefix_of_prefix_length_le (h.rdStored_mono hm) (List.prefix_append _ _) ?_⟩
  rw [List.length_map]
  exact hle

/-! ### Descriptors -/

/-- **The engine takes in the next descriptor.** -/
theorem exists_descReady (hen : ∀ t, (v t).val.enable = true) (t : ℕ) :
    ∃ m, t ≤ m ∧ (rdState v m).request.descReady = true := by
  by_contra hno
  have hready : ∀ m, t ≤ m → (rdState v m).request.descReady = false := by
    intro m hm
    by_contra hr
    exact hno ⟨m, hm, Bool.not_eq_false _ ▸ hr⟩
  have haccepts : ∀ m, t ≤ m →
      (rdState v m).request.accepts ((rdState v m).requestIn (v m).val) = false := by
    intro m hm
    rw [RdRequest.accepts, hready m hm]
    rfl
  -- so no descriptor comes, and those that have come are finished
  have hsame : ∀ m, t ≤ m → rdDescs v m = rdDescs v t := by
    intro m hm
    induction m, hm using Nat.le_induction with
    | base => rfl
    | succ m hm ih =>
      rw [rdDescs, Machine.sinceReset_succ_of_rstn (h.rstn m)]
      rw [RdEngine.descTaken, RdRequest.taken, haccepts m hm]
      exact (List.append_nil _).trans ih
  obtain ⟨n, hn, hall⟩ := h.exists_requested t
  obtain ⟨m, hm, hreported⟩ := h.exists_reported n
  have htm : t ≤ m := Nat.le_trans hn hm
  obtain ⟨_, started, pend, outs, hds, hreq, hphase, _⟩ := h.serves m
  have hleft : (rdState v m).request.left = [] := by
    have hmono : rdBursts v n <+: rdBursts v m := Machine.sinceReset_mono h.rstn _ hm
    have hle := (hall.trans hmono).length_le
    have hlen := congrArg List.length hreq.bursts
    rw [hsame m htm, List.length_append, List.length_append] at hlen
    exact List.length_eq_zero_iff.mp (by omega)
  have hidle : (rdState v m).request.state = .idle := RdRequest.idle_of_left hleft
  have hpend : pend = none := by
    have hle := (hphase.status_le []).length_le
    rw [List.append_nil, List.length_append, List.length_map, RdData.length_deal] at hle
    have hlen := congrArg List.length hds
    rw [hsame n hn] at hreported
    rw [hsame m htm, List.length_append] at hlen
    exact Option.toList_eq_nil_iff.mp (List.length_eq_zero_iff.mp (by omega))
  have hvalid : (rdState v m).request.cmdValid = false := by
    rw [hreq.valid, hpend]
    rfl
  have hnext := hready (m + 1) (Nat.le_succ_of_le htm)
  rw [h.state_succ] at hnext
  have hstep : ((rdState v m).step (v m).val).request.descReady = true := by
    exact RdRequest.descReady_of_idle hidle hvalid (haccepts m htm) (hen m)
  exact absurd (hstep.symm.trans hnext) Bool.true_eq_false.mp

/-- The words of a memory come out whole. -/
theorem exists_stream {mem : Memory}
    (hmem : ∀ t, (rdWords v t).map Prod.fst <+: answers mem (rdBursts v t)) (t : ℕ) :
    ∃ m, t ≤ m ∧ (rdDescs v t).flatMap (RdDesc.stream mem) <+: (rdGiven v m).map RdBeat.out := by
  obtain ⟨n, hn, hle⟩ := h.exists_reported t
  obtain ⟨m, hm, hgiven⟩ := h.exists_given n
  obtain ⟨_, hstream⟩ := rdGiven_stream (h.fits n) (hmem n)
  refine ⟨m, Nat.le_trans hn hm, List.IsPrefix.trans ?_ hgiven⟩
  -- the descriptors of cycle `t` are among those whose status are out
  have hdescs : rdDescs v t <+: (rdDescs v n).take (rdStatus v n).length := by
    rw [← List.take_of_length_le hle]
    exact (h.descs_mono hn).take _
  exact (hdescs.flatMap (RdDesc.stream mem)).trans hstream

end RdGoes

/-- **Each descriptor that is taken in is finished, and then the next one is taken in.**  Its
status is reported with its tag, and if the memory answers the requests in order its whole
stream is given out. -/
theorem rdEngine_finishes (v : ℕ → WithRstn (RdEngineIn p)) (h : RdGoes v) :
    (∀ t, ∃ m, t ≤ m ∧ (rdDescs v t).map RdDesc.tag <+: (rdStatus v m).map Prod.fst) ∧
    (∀ mem : Memory, (∀ t, (rdWords v t).map Prod.fst <+: answers mem (rdBursts v t)) →
      ∀ t, ∃ m, t ≤ m ∧
        (rdDescs v t).flatMap (RdDesc.stream mem) <+: (rdGiven v m).map RdBeat.out) ∧
    ((∀ t, (v t).val.enable = true) →
      ∀ t, ∃ m, t ≤ m ∧ (rdState v m).request.descReady = true) := by
  refine ⟨?_, fun mem hmem t => h.exists_stream hmem t, fun hen => h.exists_descReady hen⟩
  intro t
  obtain ⟨m, hm, hle⟩ := h.exists_reported t
  have htags := (rdStatus_le (h.fits m)).map Prod.fst
  rw [List.map_map, RdData.map_tag_deal] at htags
  refine ⟨m, hm, List.prefix_of_prefix_length_le ((h.descs_mono hm).map RdDesc.tag) htags ?_⟩
  rw [List.length_map, List.length_map]
  exact hle

/-- The descriptors have been offered. -/
theorem exists_offered {t : ℕ} {d : RdDesc p} (hd : d ∈ rdDescs v t) :
    ∃ m < t, (v m).val.desc = d := by
  induction t with
  | zero => exact absurd hd List.not_mem_nil
  | succ t ih =>
    cases hr : (v t).rstn with
    | false =>
      rw [rdDescs, Machine.sinceReset_succ_of_reset hr] at hd
      exact absurd hd List.not_mem_nil
    | true =>
      rw [rdDescs, Machine.sinceReset_succ_of_rstn hr] at hd
      rcases List.mem_append.mp hd with hd | hd
      · obtain ⟨m, hm, hdesc⟩ := ih hd
        exact ⟨m, Nat.lt_succ_of_lt hm, hdesc⟩
      · refine ⟨t, Nat.lt_succ_self t, ?_⟩
        cases ha : ((rdEngine p).resettable.state v t).request.accepts
            (((rdEngine p).resettable.state v t).requestIn (v t).val) with
        | false => simp [RdEngine.descTaken, RdRequest.taken, ha] at hd
        | true =>
          rw [RdEngine.descTaken, RdRequest.taken, ha, if_pos rfl, Option.toList_some,
            List.mem_singleton] at hd
          exact hd.symm

theorem rdDescs_succ_of_not_offered (hr : (v t).rstn = true)
    (hno : (v t).val.descValid = false) : rdDescs v (t + 1) = rdDescs v t := by
  rw [rdDescs, Machine.sinceReset_succ_of_rstn hr, RdEngine.descTaken, RdRequest.taken,
    RdRequest.accepts, RdEngine.requestIn, hno, Bool.and_false]
  exact List.append_nil _

theorem rdWords_succ_of_not_valid (hr : (v t).rstn = true) (hno : (v t).val.rvalid = false) :
    rdWords v (t + 1) = rdWords v t := by
  rw [rdWords, Machine.sinceReset_succ_of_rstn hr, RdEngine.rTaken, RdData.rTaken, RdData.takes,
    RdEngine.dataIn, hno, Bool.and_false]
  exact List.append_nil _

end Runs

/-- The same descriptor again and again, and nothing waits. -/
def readAlways : ℕ → WithRstn (RdEngineIn fourBytes) := fun _ =>
  ⟨true,
    { desc := sixBytes
      descValid := true
      arready := true
      rdata := 0
      rresp := 0
      rvalid := true
      mReady := true
      enable := true }⟩

theorem readAlways_finishes :
    ∃ m, 2 ≤ m ∧ [(7 : BitVec 8)] <+: (rdStatus readAlways m).map Prod.fst := by
  have hfit : sixBytes.Fits := ⟨by decide, by decide⟩
  have hfits : ∀ t, ∀ d ∈ rdDescs readAlways t, d.Fits := by
    intro t d hd
    obtain ⟨_, _, rfl⟩ := exists_offered hd
    exact hfit
  have hgoes : RdGoes readAlways :=
    ⟨fun _ => rfl, hfits, fun t => ⟨t, le_rfl, rfl⟩, fun t => ⟨t, le_rfl, rfl⟩,
      fun t _ => ⟨t, le_rfl, rfl⟩⟩
  exact (rdEngine_finishes readAlways hgoes).1 2

end AxisSystolic
