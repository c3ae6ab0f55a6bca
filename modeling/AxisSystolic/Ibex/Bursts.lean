import AxisSystolic.Ibex.Phase

/-!
# Bursts through the bridge

A run that accepts no burst of 256 beats shows the services of the accepted bursts
one after the other, and finishes them where nothing holds up the engine
(`bursts_served`).  A burst of 256 beats has the beat counter `0` and never ends.
-/

namespace AxisSystolic

open Sync

variable {p : SaxiParams}

namespace SaxiToHost

variable {s : SaxiToHost p} {i : SaxiIn p}

/-! ### What is left to do -/

/-- Four steps for each beat that is not finished. -/
def work (s : SaxiToHost p) : ℕ :=
  (if s.wrBusy = true then 4 * s.wrLen.toNat else 0) +
    if s.rdBusy = true then 4 * s.rdLen.toNat else 0

/-- The steps left, and one for each burst that is not begun. -/
def rank (s : SaxiToHost p) : ℕ :=
  match s.engState with
  | .idle => s.work + (if s.wrBusy = true then 1 else 0) + if s.rdBusy = true then 1 else 0
  | .wActive => s.work + (if s.rdBusy = true then 1 else 0) - if s.wrDataValid = true then 1 else 0
  | .rActive => s.work
  | .issue =>
    if s.curIsWrite = true then s.work + (if s.rdBusy = true then 1 else 0) - 2 else s.work - 1
  | .waitRsp =>
    if s.curIsWrite = true then s.work + (if s.rdBusy = true then 1 else 0) - 3
    else s.work - if s.rvalid = true then 3 else 2

theorem toNat_pos {x : BitVec 8} (h : x ≠ 0#8) : 1 ≤ x.toNat := by
  have := toNat_pred h
  omega

/-- The engine is idle, or serves a write burst, or serves a read burst. -/
theorem Phase.split {todo : List (BurstCmd p)} {now : List (PortEvent p)}
    (h : Phase s todo now) :
    (s.engState = .idle ∧ s.wrDataValid = false ∧ s.rvalid = false ∧
      todo = s.wrPending ++ s.rdPending ∧ now = []) ∨
    (∃ b ds, s.Writing b ds ∧
      (s.engState = .wActive ∨ s.engState = .issue ∨ s.engState = .waitRsp)) ∨
    ∃ b rs, s.Reading b rs ∧
      ((s.engState = .rActive ∨ s.engState = .issue) ∧ s.rvalid = false ∨
        s.engState = .waitRsp) := by
  cases h with
  | idle hs hd hv => exact Or.inl ⟨hs, hd, hv, rfl, rfl⟩
  | wEmpty b ds hs _ h => exact Or.inr (Or.inl ⟨b, ds, h, Or.inl hs⟩)
  | wFull b ds hs _ h => exact Or.inr (Or.inl ⟨b, ds, h, Or.inl hs⟩)
  | wIssue b ds hs _ h => exact Or.inr (Or.inl ⟨b, ds, h, Or.inr (Or.inl hs)⟩)
  | wWait b ds hs _ h => exact Or.inr (Or.inl ⟨b, ds, h, Or.inr (Or.inr hs)⟩)
  | rActive b rs hs hv _ h => exact Or.inr (Or.inr ⟨b, rs, h, Or.inl ⟨Or.inl hs, hv⟩⟩)
  | rIssue b rs hs hv _ h => exact Or.inr (Or.inr ⟨b, rs, h, Or.inl ⟨Or.inr hs, hv⟩⟩)
  | rWait b rs hs _ _ h => exact Or.inr (Or.inr ⟨b, rs, h, Or.inr hs⟩)
  | rAnswer b rs r hs _ _ h => exact Or.inr (Or.inr ⟨b, rs, h, Or.inr hs⟩)

theorem rank_eq_zero_iff {todo : List (BurstCmd p)} {now : List (PortEvent p)}
    (h : Phase s todo now) : s.rank = 0 ↔ s.free = true := by
  rcases h.split with ⟨hs, -⟩ | ⟨b, ds, h, hs⟩ | ⟨b, rs, h, hs⟩
  · cases hwb : s.wrBusy <;> cases hrb : s.rdBusy <;> simp [rank, work, free, hs, hwb, hrb]
  · have hpos := toNat_pos h.left
    have hwork : 4 ≤ s.work := by
      rw [work, if_pos h.busy]
      omega
    have hne : s.rank ≠ 0 := by
      rcases hs with hs | hs | hs
      · rw [rank, hs]
        dsimp only
        split_ifs <;> omega
      · rw [rank, hs]
        dsimp only
        rw [if_pos h.isWrite]
        omega
      · rw [rank, hs]
        dsimp only
        rw [if_pos h.isWrite]
        omega
    simp [hne, free, h.busy]
  · have hpos := toNat_pos h.left
    have hwork : 4 ≤ s.work := by
      rw [work, if_pos h.busy]
      omega
    have hne : s.rank ≠ 0 := by
      have hr : ¬ s.curIsWrite = true := by simp [h.isRead]
      rcases hs with ⟨hs | hs, -⟩ | hs
      · rw [rank, hs]
        exact Nat.ne_of_gt (Nat.lt_of_lt_of_le (by decide) hwork)
      · rw [rank, hs]
        dsimp only
        rw [if_neg hr]
        omega
      · rw [rank, hs]
        dsimp only
        rw [if_neg hr]
        split_ifs <;> omega
    simp [hne, free, h.busy]

/-- An edge that does not hold the engine up lowers the rank. -/
def RankFalls (s s' : SaxiToHost p) (go : Bool) : Prop :=
  s'.rank ≤ s.rank ∧ (go = true → s'.rank < s.rank)

theorem rank_step_idle (hc : s.Coherent) (hs : s.engState = .idle)
    (hd : s.wrDataValid = false) (hv : s.rvalid = false) (hi : i.dataRvalid = false)
    (hn : s.rank ≠ 0) : RankFalls s (s.step i) (s.goes i) := by
  rcases hwb : s.wrBusy with _ | _
  · rcases hrb : s.rdBusy with _ | _
    · simp [rank, work, hs, hwb, hrb] at hn
    · rw [step_of_idle_read hs hrb (hc.rdCmd.trans hrb) (hc.wrCmd.trans hwb) hv hi]
      simp [RankFalls, rank, work, hs, hwb, hrb]
  · rw [step_of_idle_write hs hwb (hc.wrCmd.trans hwb) hv hi]
    simp [RankFalls, rank, work, hs, hd, hwb]

theorem rank_step_write {b : Burst p} {ds} (h : s.Writing b ds)
    (hi : i.dataRvalid = true → s.waiting = true)
    (hs : s.engState = .wActive ∨ s.engState = .issue ∨ s.engState = .waitRsp) :
    RankFalls s (s.step i) (s.goes i) := by
  have hpos := toNat_pos h.left
  rcases hs with hs | hs | hs
  · have hq := quiet_of_not_waiting hi (Or.inl (by simp [hs]))
    rw [step_of_wActive hs h.noR hq]
    cases hd : s.wrDataValid <;> cases hw : i.wvalid <;>
      simp [RankFalls, rank, work, goes, wHs, wantWbeat, hs, hd, hw, h.busy, h.isWrite] <;> omega
  · have hq := quiet_of_not_waiting hi (Or.inl (by simp [hs]))
    rw [step_of_issue hs h.noR hq]
    rcases hg : i.dataGnt with _ | _
    · simp [RankFalls, rank, work, goes, hs, hg, h.isWrite]
    · simp [RankFalls, rank, work, goes, hs, h.busy, h.isWrite]
      omega
  · rcases hr : i.dataRvalid with _ | _
    · rw [step_of_waitRsp hs hr (by simp [rHs, h.noR])]
      simp [RankFalls, rank, work, goes, hs, hr, h.isWrite]
    · have hpred := toNat_pred h.left
      rw [step_of_wrRsp hs h.isWrite h.noR h.left hr]
      by_cases hl : s.wrLen = 1#8
      · simp [RankFalls, rank, work, goes, hs, hl, h.isWrite, h.busy]
        omega
      · simp [RankFalls, rank, work, goes, hs, hl, h.isWrite, h.busy]
        change (s.wrLen - 1#8).toNat + 1 = _ at hpred
        omega

theorem rank_step_read {b : Burst p} {rs} (hc : s.Coherent) (h : s.Reading b rs)
    (hi : i.dataRvalid = true → s.waiting = true)
    (hs : (s.engState = .rActive ∨ s.engState = .issue) ∧ s.rvalid = false ∨
      s.engState = .waitRsp) :
    RankFalls s (s.step i) (s.goes i) := by
  have hpos := toNat_pos h.left
  rcases hs with ⟨hs | hs, hv⟩ | hs
  · have hq := quiet_of_not_waiting hi (Or.inl (by simp [hs]))
    rw [step_of_rActive hs hv hq]
    simp [RankFalls, rank, work, hs, h.busy, h.isRead]
    omega
  · have hq := quiet_of_not_waiting hi (Or.inl (by simp [hs]))
    rw [step_of_issue hs hv hq]
    rcases hg : i.dataGnt with _ | _
    · simp [RankFalls, rank, work, goes, hs, hg, h.isRead]
    · simp [RankFalls, rank, work, goes, hs, hv, h.busy, h.isRead]
      omega
  · rcases hv : s.rvalid with _ | _
    · rcases hr : i.dataRvalid with _ | _
      · rw [step_of_waitRsp hs hr (by simp [rHs, hv])]
        simp [RankFalls, rank, work, goes, hs, hr, hv, h.isRead]
      · rw [step_of_rdRsp hs h.isRead hv (hc.hold.trans hv) hr]
        simp [RankFalls, rank, work, goes, hs, hv, h.isRead, h.busy]
        omega
    · have hq := quiet_of_not_waiting hi (Or.inr hv)
      rcases hr : i.rready with _ | _
      · rw [step_of_waitRsp hs hq (by simp [rHs, hr])]
        simp [RankFalls, rank, work, goes, hs, hr, hv, h.isRead]
      · have hpred := toNat_pred h.left
        rw [step_of_rHs hs h.isRead h.left hq (by simp [rHs, hr, hv])]
        by_cases hl : s.rdLen = 1#8
        · simp [RankFalls, rank, work, goes, hs, hl, hv, h.isRead, h.busy, h.free]
        · simp [RankFalls, rank, work, goes, hs, hl, hv, h.isRead, h.busy, h.free]
          change (s.rdLen - 1#8).toNat + 1 = _ at hpred
          omega

theorem Phase.rank_step {todo : List (BurstCmd p)} {now : List (PortEvent p)} (hc : s.Coherent)
    (h : Phase s todo now) (hi : i.dataRvalid = true → s.waiting = true) (hn : s.rank ≠ 0) :
    RankFalls s (s.step i) (s.goes i) := by
  rcases h.split with ⟨hs, hd, hv, -⟩ | ⟨b, ds, h, hs⟩ | ⟨b, rs, h, hs⟩
  · exact rank_step_idle hc hs hd hv (quiet_of_not_waiting hi (Or.inl (by simp [hs]))) hn
  · exact rank_step_write h hi hs
  · exact rank_step_read hc h hi hs

end SaxiToHost

/-! ### What is begun is the beginning of a service -/

namespace Service

theorem exists_cmd (c : BurstCmd p) : ∃ v : Service p, v.cmd = c := by
  cases c with
  | read b => exact ⟨.read b (List.replicate (b.len.toNat + 1) ⟨0, false⟩) (by simp), rfl⟩
  | write b =>
    exact ⟨.write b (List.replicate (b.len.toNat + 1) (⟨0, 0⟩, ⟨0, false⟩)) (by simp), rfl⟩

theorem exists_read (b : Burst p) (rs : List HostRsp) (h : rs.length ≤ b.len.toNat)
    (r : HostRsp) : ∃ v : Service p, v.cmd = .read b ∧
      blocks b.readBeat (rs ++ [r]) <+: v.events := by
  have hlen : ((rs ++ [r]) ++ List.replicate (b.len.toNat - rs.length) r).length =
      b.len.toNat + 1 := by
    simp
    omega
  exact ⟨.read b _ hlen, rfl, blocks_mono _ _ _⟩

theorem exists_write (b : Burst p) (ds : List (WBeat × HostRsp)) (h : ds.length ≤ b.len.toNat)
    (d : WBeat × HostRsp) : ∃ v : Service p, v.cmd = .write b ∧
      blocks b.writeBeat (ds ++ [d]) <+: v.events := by
  have hlen : ((ds ++ [d]) ++ List.replicate (b.len.toNat - ds.length) d).length =
      b.len.toNat + 1 := by
    simp
    omega
  exact ⟨.write b _ hlen, rfl, (blocks_mono _ _ _).trans (List.prefix_append _ _)⟩

/-- Bursts that are not begun. -/
theorem exists_cmds (cs : List (BurstCmd p)) : ∃ vs : List (Service p), vs.map cmd = cs := by
  induction cs with
  | nil => exact ⟨[], rfl⟩
  | cons c cs ih =>
    obtain ⟨v, hv⟩ := exists_cmd c
    obtain ⟨vs, hvs⟩ := ih
    exact ⟨v :: vs, by rw [List.map_cons, hv, hvs]⟩

end Service

namespace SaxiToHost

variable {s : SaxiToHost p}

theorem Writing.begun {b : Burst p} {ds} (h : s.Writing b ds) (d : WBeat × HostRsp)
    {now : List (PortEvent p)} (hnow : now <+: blocks b.writeBeat (ds ++ [d]))
    (rest : List (BurstCmd p)) : ∃ vs : List (Service p),
      vs.map Service.cmd = .write b :: rest ∧ now <+: vs.flatMap Service.events := by
  have hlen := h.len
  have hpos := toNat_pos h.left
  obtain ⟨v, hv, hev⟩ := Service.exists_write b ds (by omega) d
  obtain ⟨vs, hvs⟩ := Service.exists_cmds rest
  exact ⟨v :: vs, by rw [List.map_cons, hv, hvs],
    hnow.trans (hev.trans (List.prefix_append _ _))⟩

theorem Reading.begun {b : Burst p} {rs} (h : s.Reading b rs) (r : HostRsp)
    {now : List (PortEvent p)} (hnow : now <+: blocks b.readBeat (rs ++ [r]))
    (rest : List (BurstCmd p)) : ∃ vs : List (Service p),
      vs.map Service.cmd = .read b :: rest ∧ now <+: vs.flatMap Service.events := by
  have hlen := h.len
  have hpos := toNat_pos h.left
  obtain ⟨v, hv, hev⟩ := Service.exists_read b rs (by omega) r
  obtain ⟨vs, hvs⟩ := Service.exists_cmds rest
  exact ⟨v :: vs, by rw [List.map_cons, hv, hvs],
    hnow.trans (hev.trans (List.prefix_append _ _))⟩

theorem Phase.begun {todo : List (BurstCmd p)} {now : List (PortEvent p)}
    (h : Phase s todo now) : ∃ vs : List (Service p), vs.map Service.cmd = todo ∧
      now <+: vs.flatMap Service.events := by
  let r₀ : HostRsp := ⟨0, false⟩
  let d₀ : WBeat × HostRsp := (⟨s.wrDataQ, s.wrStrbQ⟩, r₀)
  cases h with
  | idle =>
    obtain ⟨vs, hvs⟩ := Service.exists_cmds (s.wrPending ++ s.rdPending)
    exact ⟨vs, hvs, List.nil_prefix⟩
  | wEmpty b ds _ _ h => exact h.begun d₀ (blocks_mono _ _ _) _
  | wFull b ds _ _ h => exact h.begun d₀ ⟨_, by rw [blocks_snoc, List.append_assoc]; rfl⟩ _
  | wIssue b ds _ _ h => exact h.begun d₀ ⟨_, by rw [blocks_snoc, List.append_assoc]; rfl⟩ _
  | wWait b ds _ _ h => exact h.begun d₀ ⟨_, by rw [blocks_snoc, List.append_assoc]; rfl⟩ _
  | rActive b rs _ _ _ h => exact h.begun r₀ (blocks_mono _ _ _) _
  | rIssue b rs _ _ _ h => exact h.begun r₀ (blocks_mono _ _ _) _
  | rWait b rs _ _ _ h => exact h.begun r₀ ⟨_, by rw [blocks_snoc, List.append_assoc]; rfl⟩ _
  | rAnswer b rs r _ _ _ h => exact h.begun r ⟨_, by rw [blocks_snoc, List.append_assoc]; rfl⟩ _

/-- Nothing is begun where nothing is accepted and not finished. -/
theorem Phase.of_free {todo : List (BurstCmd p)} {now : List (PortEvent p)}
    (h : Phase s todo now) (hf : s.free = true) : todo = [] ∧ now = [] := by
  simp only [free, Bool.and_eq_true, Bool.not_eq_true'] at hf
  rcases h.split with ⟨-, -, -, htodo, hnow⟩ | ⟨b, ds, h, -⟩ | ⟨b, rs, h, -⟩
  · exact ⟨by simp [htodo, wrPending, rdPending, hf], hnow⟩
  · rw [h.busy] at hf
    cases hf.2
  · rw [h.busy] at hf
    cases hf.1

/-- The B response is raised at the edge that ends the cycle of the last response of
the host. -/
theorem portEvents_of_bRaised {i : SaxiIn p} (hi : i.dataRvalid = true → s.waiting = true)
    {x : BResp p} (hx : .b x ∈ s.portEvents i) : ∃ r, s.portEvents i = [.rsp r, .b x] := by
  obtain ⟨hrise, -⟩ : (s.bvalid = false ∧ (s.step i).bvalid = true) ∧ _ := by
    simpa [portEvents] using hx
  have hdone : s.wrDone i = true := by
    by_contra hdone
    rw [step_bvalid_of_not_wrDone (Bool.not_eq_true _ ▸ hdone), not_bNext hrise.1] at hrise
    cases hrise.2
  simp only [wrDone, Bool.and_eq_true, beq_iff_eq] at hdone
  obtain ⟨⟨hw, hr⟩, hl⟩ := hdone
  have hwait := waiting_iff.mp (hi hr)
  have hev := portEvents_of_wrRsp hwait.1 hw hwait.2 (by rw [hl]; decide) hr hrise.1
  rw [if_pos (show s.wrLen = 1#8 from hl)] at hev
  rw [hev] at hx ⊢
  have hxb : x = ⟨s.wrId, s.rspResp i⟩ := by simpa using hx
  exact ⟨_, by rw [hxb]⟩

theorem coherent_reset : (SaxiToHost.reset p).Coherent := ⟨rfl, rfl, rfl, fun h => by cases h⟩

theorem bridged_reset : Bridged (SaxiToHost.reset p) [] [] :=
  ⟨[], [], [], .idle rfl rfl rfl (fun h => by cases h) (fun h => by cases h), rfl, rfl⟩

end SaxiToHost

section Run

variable {u : ℕ → SaxiIn p}

theorem accepted_succ (t : ℕ) : accepted p u (t + 1) =
    accepted p u t ++ ((saxiToHost p).state u t).accepts (u t) :=
  Machine.trace_succ _ t

theorem portTrace_succ (t : ℕ) : portTrace p u (t + 1) =
    portTrace p u t ++ ((saxiToHost p).state u t).portEvents (u t) :=
  Machine.trace_succ _ t

/-- A host that answers only what it has granted answers only while the engine
waits for it. -/
theorem waiting_of_answer (hhost : HostAnswers p u) {t : ℕ}
    (h : ((saxiToHost p).state u t).Bridged (accepted p u t) (portTrace p u t))
    (hr : (u t).dataRvalid = true) : ((saxiToHost p).state u t).waiting = true := by
  have hpos := hhost t hr
  rw [unanswered, h.countP] at hpos
  by_contra hw
  rw [if_neg hw, Nat.add_zero, Nat.sub_self] at hpos
  exact absurd hpos (Nat.lt_irrefl 0)

theorem bridged_run (hhost : HostAnswers p u)
    (hlen : ∀ n, ((saxiToHost p).state u n).LenOk (u n)) (t : ℕ) :
    ((saxiToHost p).state u t).Coherent ∧
      ((saxiToHost p).state u t).Bridged (accepted p u t) (portTrace p u t) := by
  induction t with
  | zero => exact ⟨SaxiToHost.coherent_reset, SaxiToHost.bridged_reset⟩
  | succ t ih =>
    rw [Machine.state_succ, accepted_succ, portTrace_succ]
    exact ⟨ih.1.step (u t), ih.2.step ih.1 (waiting_of_answer hhost ih.2) (hlen t)⟩

/-- Where the engine is not held up for ever it finishes what has been accepted. -/
theorem becomes_free (hhost : HostAnswers p u)
    (hlen : ∀ n, ((saxiToHost p).state u n).LenOk (u n)) (hgoes : Goes p u) (n : ℕ) :
    ∃ m, n ≤ m ∧ ((saxiToHost p).state u m).free = true := by
  have hstep : ∀ m, ((saxiToHost p).state u m).rank ≠ 0 →
      SaxiToHost.RankFalls ((saxiToHost p).state u m) ((saxiToHost p).state u (m + 1))
        (((saxiToHost p).state u m).goes (u m)) := by
    intro m hm
    obtain ⟨hc, hb⟩ := bridged_run hhost hlen m
    obtain ⟨done, todo, now, hphase, -, -⟩ := id hb
    exact hphase.rank_step hc (waiting_of_answer hhost hb) hm
  obtain ⟨m, hnm, hzero, -⟩ := @runs_down (fun m => ((saxiToHost p).state u m).rank)
    (fun m hm => (hstep m hm).1)
    (fun m => (hgoes m).imp fun k hk => ⟨hk.1, fun hne => (hstep k hne).2 hk.2⟩) n
  obtain ⟨-, done, todo, now, hphase, -, -⟩ := bridged_run hhost hlen m
  exact ⟨m, hnm, (SaxiToHost.rank_eq_zero_iff hphase).mp hzero⟩

end Run

/-- **Where no burst of 256 beats is accepted, the ports show the services of the
accepted bursts one after the other, a B response is raised in the cycle after the
last response of the host, and every accepted burst is finished where the engine is
not held up for ever.** -/
theorem bursts_served {u : ℕ → SaxiIn p} (hhost : HostAnswers p u)
    (hlen : ∀ n, ((saxiToHost p).state u n).LenOk (u n)) :
    (∀ t, ∃ vs : List (Service p), vs.map Service.cmd = accepted p u t ∧
      portTrace p u t <+: vs.flatMap Service.events ∧
      (((saxiToHost p).state u t).free = true →
        portTrace p u t = vs.flatMap Service.events)) ∧
    (∀ t x, .b x ∈ ((saxiToHost p).state u t).portEvents (u t) →
      ∃ r, ((saxiToHost p).state u t).portEvents (u t) = [.rsp r, .b x]) ∧
    (Goes p u → ∀ n, ∃ m, n ≤ m ∧ ((saxiToHost p).state u m).free = true) := by
  refine ⟨fun t => ?_, fun t x hx => ?_, becomes_free hhost hlen⟩
  · obtain ⟨-, done, todo, now, hphase, hacc, hshown⟩ := bridged_run hhost hlen t
    obtain ⟨vs, hvs, hnow⟩ := hphase.begun
    refine ⟨done ++ vs, by rw [List.map_append, hvs, hacc], ?_, fun hfree => ?_⟩
    · rw [hshown, List.flatMap_append]
      exact (List.prefix_append_right_inj _).mpr hnow
    · obtain ⟨htodo, hnone⟩ := hphase.of_free hfree
      rw [htodo, List.map_eq_nil_iff] at hvs
      rw [hshown, hnone, hvs, List.append_nil, List.append_nil]
  · obtain ⟨-, hb⟩ := bridged_run hhost hlen t
    exact SaxiToHost.portEvents_of_bRaised (waiting_of_answer hhost hb) hx

/-- A master and a host that take every offer at once; the host answers in the cycles
`answers`. -/
def promptIn (arlen awlen : BitVec 8) (arvalid awvalid : Bool) (answers : List ℕ) (n : ℕ) :
    SaxiIn ⟨4, 32⟩ where
  arid := 5
  araddr := 0x100
  arlen := arlen
  arsize := 2
  arburst := axiBurstIncr
  arvalid := arvalid && n == 0
  rready := true
  awid := 6
  awaddr := 0x200
  awlen := awlen
  awsize := 2
  awburst := axiBurstIncr
  awvalid := awvalid && n == 0
  wdata := 7
  wstrb := 3
  wvalid := true
  bready := true
  dataGnt := true
  dataRvalid := n ∈ answers
  dataErr := false
  dataRdata := BitVec.ofNat 32 n

/-- A read burst of 256 beats. -/
def longRead : ℕ → SaxiIn ⟨4, 32⟩ := promptIn 255 0 true false [4, 8]

/-- The bridge reads the first address again and again. -/
theorem longRead_not_served : (∀ n, n < 8 → (longRead n).dataRvalid = true →
      0 < unanswered ⟨4, 32⟩ longRead n) ∧
    ¬ ∃ vs : List (Service ⟨4, 32⟩), vs.map Service.cmd = accepted ⟨4, 32⟩ longRead 8 ∧
      portTrace ⟨4, 32⟩ longRead 8 <+: vs.flatMap Service.events := by
  refine ⟨by decide, ?_⟩
  rintro ⟨vs, hcmd, hshown⟩
  have hacc : accepted ⟨4, 32⟩ longRead 8 = [.read ⟨5, 0x100, 255⟩] := by decide
  have htrace : (portTrace ⟨4, 32⟩ longRead 8)[3]? = some (.gnt ⟨0x100, false, 0xF, 0⟩) := by
    decide
  rw [hacc] at hcmd
  obtain ⟨v, rfl⟩ : ∃ v, vs = [v] :=
    List.length_eq_one_iff.mp (by simpa using congrArg List.length hcmd)
  have hv : v.cmd = .read ⟨5, 0x100, 255⟩ := by simpa using hcmd
  cases v with
  | write b ds _ => cases hv
  | read b rs hrs =>
    obtain rfl : b = ⟨5, 0x100, 255⟩ := by simpa [Service.cmd] using hv
    obtain ⟨r, r', rs, rfl⟩ : ∃ r r' rs', rs = r :: r' :: rs' := by
      rcases rs with _ | ⟨r, _ | ⟨r', rs⟩⟩
      · cases hrs
      · cases hrs
      · exact ⟨r, r', rs, rfl⟩
    -- the second access of the service has the next address
    have hsecond := getElem?_mono hshown htrace
    rw [List.flatMap_singleton] at hsecond
    have haddr : some (PortEvent.gnt ⟨0x104, false, 0xF, 0⟩) =
        (some (.gnt ⟨0x100, false, 0xF, 0⟩) : Option (PortEvent ⟨4, 32⟩)) := hsecond
    revert haddr
    decide

/-- A read burst of two beats and a write burst of one, accepted in one cycle. -/
def shortBursts : ℕ → SaxiIn ⟨4, 32⟩ := promptIn 1 0 true true [5, 9, 13]

theorem shortBursts_quiet {n : ℕ} (hn : 15 ≤ n) : (shortBursts n).dataRvalid = false := by
  have hne : n ≠ 5 ∧ n ≠ 9 ∧ n ≠ 13 := by omega
  simp [shortBursts, promptIn, hne]

theorem shortBursts_not_ok (s : SaxiToHost ⟨4, 32⟩) {n : ℕ} (hn : n ≠ 0) :
    s.arOk (shortBursts n) = false ∧ s.awOk (shortBursts n) = false := by
  simp [SaxiToHost.arOk, SaxiToHost.awOk, shortBursts, promptIn, hn]

/-- From cycle `15` on the bridge is at rest. -/
theorem shortBursts_rests (n : ℕ) : let s := (saxiToHost ⟨4, 32⟩).state shortBursts (15 + n)
    s.engState = .idle ∧ s.rdCmdValid = false ∧ s.wrCmdValid = false ∧ s.rvalid = false := by
  induction n with
  | zero => decide
  | succ n ih =>
    obtain ⟨hs, hr, hw, hv⟩ := ih
    have hok := shortBursts_not_ok ((saxiToHost ⟨4, 32⟩).state shortBursts (15 + n))
      (n := 15 + n) (by omega)
    have hstep := SaxiToHost.step_of_free hs hr hw hv (shortBursts_quiet (n := 15 + n) (by omega))
    rw [hok.1, hok.2] at hstep
    rw [← Nat.add_assoc, Machine.state_succ]
    show (SaxiToHost.step _ _).engState = _ ∧ (SaxiToHost.step _ _).rdCmdValid = _ ∧
      (SaxiToHost.step _ _).wrCmdValid = _ ∧ (SaxiToHost.step _ _).rvalid = _
    rw [hstep]
    exact ⟨hs, rfl, rfl, hv⟩

theorem shortBursts_served : (∀ t, ∃ vs : List (Service ⟨4, 32⟩),
      vs.map Service.cmd = accepted ⟨4, 32⟩ shortBursts t ∧
      portTrace ⟨4, 32⟩ shortBursts t <+: vs.flatMap Service.events ∧
      (((saxiToHost ⟨4, 32⟩).state shortBursts t).free = true →
        portTrace ⟨4, 32⟩ shortBursts t = vs.flatMap Service.events)) ∧
    (∀ t x, .b x ∈ ((saxiToHost ⟨4, 32⟩).state shortBursts t).portEvents (shortBursts t) →
      ∃ r, ((saxiToHost ⟨4, 32⟩).state shortBursts t).portEvents (shortBursts t) =
        [.rsp r, .b x]) ∧
    ∀ n, ∃ m, n ≤ m ∧ ((saxiToHost ⟨4, 32⟩).state shortBursts m).free = true := by
  have hhost : HostAnswers ⟨4, 32⟩ shortBursts := by
    intro n hn
    have hmem : n = 5 ∨ n = 9 ∨ n = 13 := by simpa [shortBursts, promptIn] using hn
    rcases hmem with rfl | rfl | rfl <;> decide
  have hlen : ∀ n, ((saxiToHost ⟨4, 32⟩).state shortBursts n).LenOk (shortBursts n) := by
    intro n
    rcases Nat.eq_zero_or_pos n with rfl | hpos
    · decide
    · have hok := shortBursts_not_ok ((saxiToHost ⟨4, 32⟩).state shortBursts n)
        (n := n) (by omega)
      exact ⟨fun h => by simp [hok] at h, fun h => by simp [hok] at h⟩
  have hgoes : Goes ⟨4, 32⟩ shortBursts := by
    intro n
    refine ⟨15 + n, by omega, ?_⟩
    rw [SaxiToHost.goes, (shortBursts_rests n).1]
  exact ⟨(bursts_served hhost hlen).1, (bursts_served hhost hlen).2.1,
    (bursts_served hhost hlen).2.2 hgoes⟩

end AxisSystolic
