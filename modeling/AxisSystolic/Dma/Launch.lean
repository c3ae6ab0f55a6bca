import AxisSystolic.Dma.Controller

/-!
# Launching the four engines

A launch is the time from a write of `START` to the cycle in which the
controller clears it (`Launch`).  Each channel hands over its descriptor exactly
once in a launch if and only if no cycle but the last of it has the output
engine and an input engine ready (`LaunchOk`): the handshakes of the channels
are independent of the clearing, which waits for all four.
-/

namespace AxisSystolic

open Sync

variable {p : DmaParams}

/-- `START` is written in cycle `w`, its bit `0` is set in the `n` cycles after
it, and software leaves the registers alone until the bit is clear again. -/
structure Launch (p : DmaParams) (u : ℕ → DmaIn p) (w n : ℕ) : Prop where
  idle : ((dmaController p).state u w).start = false
  write : Cfg.startNext (u w) = true
  quiet : ∀ m < n, (u (w + 1 + m)).regWrEn = false
  set : ∀ m < n, ((dmaController p).state u (w + 1 + m)).start = true
  clear : ((dmaController p).state u (w + 1 + n)).start = false

instance (u : ℕ → DmaIn p) (w n : ℕ) : Decidable (Launch p u w n) :=
  decidable_of_iff (((dmaController p).state u w).start = false ∧ Cfg.startNext (u w) = true ∧
    (∀ m < n, (u (w + 1 + m)).regWrEn = false) ∧
    (∀ m < n, ((dmaController p).state u (w + 1 + m)).start = true) ∧
    ((dmaController p).state u (w + 1 + n)).start = false)
    ⟨fun ⟨h₁, h₂, h₃, h₄, h₅⟩ => ⟨h₁, h₂, h₃, h₄, h₅⟩,
      fun ⟨h₁, h₂, h₃, h₄, h₅⟩ => ⟨h₁, h₂, h₃, h₄, h₅⟩⟩

/-- How often channel `c` hands over a descriptor in the `n` cycles after `w`. -/
def handovers (p : DmaParams) (u : ℕ → DmaIn p) (w n : ℕ) (c : Channel) : ℕ :=
  (List.range n).countP fun m =>
    ((dmaController p).state u (w + 1 + m)).taken (u (w + 1 + m)) c

/-- All engines are ready, or no input engine is ready together with the output
engine. -/
def LaunchOk (i : DmaIn p) : Prop :=
  (∀ c, i.ready c = true) ∨ i.ready .s2mm = false ∨ ∀ c, c ≠ .s2mm → i.ready c = false

instance (i : DmaIn p) : Decidable (LaunchOk i) :=
  inferInstanceAs (Decidable (_ ∨ _ ∨ _))

namespace Cfg

variable {s : Cfg p} {i : DmaIn p} {c : Channel}

theorem taken_of_allReady (hs : s.start = true) (hr : ∀ c, i.ready c = true) :
    s.taken i c = true := by
  cases c <;> simp [taken, valid, hs, hr]

/-- Without all engines ready a cycle hands over nothing exactly if it is
`LaunchOk`. -/
theorem taken_iff (hs : s.start = true) (hr : ¬ ∀ c, i.ready c = true) :
    (∀ c, s.taken i c = false) ↔ LaunchOk i := by
  refine ⟨?_, ?_⟩
  · intro h
    rcases hr2 : i.ready .s2mm with _ | _
    · exact Or.inr (Or.inl hr2)
    · refine Or.inr (Or.inr ?_)
      intro c hc
      have ht := h c
      cases c
      case s2mm => exact absurd rfl hc
      all_goals simpa [taken, valid, hs, hr2] using ht
  · rintro (h | h | h) c
    · exact absurd h hr
    · cases c <;> simp [taken, valid, h]
    · have h0 := h .mm2s0 (by decide)
      cases c
      case s2mm => simp [taken, valid, h0]
      case mm2s0 => simp [taken, h0]
      case mm2s1 => simp [taken, h .mm2s1 (by decide)]
      case mm2s2 => simp [taken, h .mm2s2 (by decide)]

end Cfg

namespace Launch

variable {u : ℕ → DmaIn p} {w n : ℕ}

/-- The bit is cleared in the first cycle in which all engines are ready. -/
theorem allReady_iff (h : Launch p u w n) {m : ℕ} (hm : m < n) :
    (∀ c, (u (w + 1 + m)).ready c = true) ↔ m + 1 = n := by
  have hw : ¬ Cfg.writes (u (w + 1 + m)) aStart := by
    intro hw
    rw [Cfg.writes, h.quiet m hm] at hw
    cases hw.1
  have hnext : ((dmaController p).state u (w + 1 + (m + 1))).start
      = (if ((dmaController p).state u (w + 1 + m)).start = true ∧
          Cfg.allReady (u (w + 1 + m)) = true then 0
        else ((dmaController p).state u (w + 1 + m)) aStart).getLsbD 0 := by
    rw [← Cfg.step_start_of_not_writes hw]
    rfl
  rw [← Cfg.allReady_iff]
  refine ⟨?_, ?_⟩
  · intro hr
    rw [if_pos ⟨h.set m hm, hr⟩] at hnext
    by_contra hne
    rw [h.set (m + 1) (by omega)] at hnext
    simp at hnext
  · intro hmn
    by_contra hr
    rw [hmn, h.clear, if_neg (fun hs => hr hs.2)] at hnext
    have hset := h.set m hm
    rw [Cfg.start, ← hnext] at hset
    cases hset

theorem pos (h : Launch p u w n) : 1 ≤ n := by
  by_contra hn
  obtain rfl : n = 0 := by omega
  have hwr : Cfg.writes (u w) aStart ∧ (u w).regWrData.getLsbD 0 = true := by
    have hw := h.write
    simp only [Cfg.startNext, Bool.and_eq_true, beq_iff_eq] at hw
    exact ⟨⟨hw.1.1, hw.1.2⟩, hw.2⟩
  have hset : ((dmaController p).state u (w + 1)).start = true := by
    rw [Cfg.start, Machine.state_succ]
    show (((dmaController p).state u w).step (u w) aStart).getLsbD 0 = true
    rw [Cfg.step_of_writes (by decide) hwr.1, hwr.2]
  rw [h.clear] at hset
  cases hset

/-- The last cycle of a launch hands over a descriptor on every channel. -/
theorem handovers_eq (h : Launch p u w n) (c : Channel) :
    handovers p u w n c = handovers p u w (n - 1) c + 1 := by
  have hn := h.pos
  obtain ⟨m, rfl⟩ : ∃ m, n = m + 1 := ⟨n - 1, by omega⟩
  have hlast := Cfg.taken_of_allReady (c := c) (h.set m (by omega))
    ((h.allReady_iff (by omega)).mpr rfl)
  rw [handovers, List.range_succ, List.countP_append, List.countP_singleton, if_pos hlast]
  rfl

theorem handovers_eq_zero_iff {m : ℕ} {c : Channel} : handovers p u w m c = 0 ↔
    ∀ k < m, ((dmaController p).state u (w + 1 + k)).taken (u (w + 1 + k)) c = false := by
  simp [handovers, List.countP_eq_zero]

end Launch

/-- **A launch hands over exactly one descriptor on each channel if and only if
none of its cycles has an input engine and the output engine ready while another
engine is not.** -/
theorem launch_once_iff {u : ℕ → DmaIn p} {w n : ℕ} (h : Launch p u w n) :
    (∀ c, handovers p u w n c = 1) ↔ ∀ m < n, LaunchOk (u (w + 1 + m)) := by
  have hn := h.pos
  have hcount : (∀ c, handovers p u w n c = 1) ↔ ∀ c, handovers p u w (n - 1) c = 0 := by
    refine forall_congr' fun c => ?_
    rw [h.handovers_eq]
    omega
  have hearly : ∀ m < n - 1, ((∀ c, ((dmaController p).state u (w + 1 + m)).taken
      (u (w + 1 + m)) c = false) ↔ LaunchOk (u (w + 1 + m))) := by
    intro m hm
    refine Cfg.taken_iff (h.set m (by omega)) ?_
    rw [h.allReady_iff (by omega)]
    omega
  rw [hcount]
  refine ⟨?_, ?_⟩
  · intro hzero m hm
    by_cases hlast : m + 1 = n
    · exact Or.inl ((h.allReady_iff hm).mpr hlast)
    · exact (hearly m (by omega)).mp fun c =>
        Launch.handovers_eq_zero_iff.mp (hzero c) m (by omega)
  · intro hok c
    exact Launch.handovers_eq_zero_iff.mpr fun m hm =>
      (hearly m hm).mpr (hok m (by omega)) c

/-- A status pulse of channel `c` comes between two cycles. -/
def StatusBetween (u : ℕ → DmaIn p) (c : Channel) (a b : ℕ) : Prop :=
  ∃ k < b, a < k ∧ (u k).statusValid c = true

instance (u : ℕ → DmaIn p) (c : Channel) (a b : ℕ) : Decidable (StatusBetween u c a b) :=
  inferInstanceAs (Decidable (∃ k < b, _))

/-- An engine that has accepted a descriptor is not ready again before its
status pulse. -/
def ReadyFalls (p : DmaParams) (u : ℕ → DmaIn p) (t : ℕ) : Prop :=
  ∀ a < t, ∀ c, ((dmaController p).state u a).taken (u a) c = true →
    ∀ b < t, a < b → (u b).ready c = true → StatusBetween u c a b

instance (u : ℕ → DmaIn p) (t : ℕ) : Decidable (ReadyFalls p u t) :=
  inferInstanceAs (Decidable (∀ a < t, ∀ _, _ → ∀ b < t, _))

/-- A cycle without a register access. -/
def quietCycle (ready status : Channel → Bool) : DmaIn dma32 :=
  ⟨false, 0, 0, ready, status, fun _ => 0⟩

/-- `START` is written in cycle `0`, and the engine of `mm2s_1` is ready two
cycles after the others. -/
def lateEngine : ℕ → DmaIn dma32
  | 0 => ⟨true, 0, 1, fun c => c != .mm2s1, fun _ => false, fun _ => 0⟩
  | 1 => quietCycle (fun c => c != .mm2s1) fun _ => false
  | 2 => quietCycle (fun c => c == .mm2s1) fun c => c != .mm2s1
  | _ => quietCycle (fun _ => true) fun _ => false

/-- The other channels hand their descriptors over twice. -/
theorem lateEngine_twice : Launch dma32 lateEngine 0 3 ∧ ReadyFalls dma32 lateEngine 4 ∧
    handovers dma32 lateEngine 0 3 .mm2s0 = 2 ∧ handovers dma32 lateEngine 0 3 .mm2s1 = 1 := by
  decide

/-- The same with the output engine ready last. -/
def lateOutput : ℕ → DmaIn dma32
  | 0 => ⟨true, 0, 1, fun c => c != .s2mm, fun _ => false, fun _ => 0⟩
  | 1 => quietCycle (fun c => c != .s2mm) fun _ => false
  | _ => quietCycle (fun _ => true) fun _ => false

/-- Every channel hands its descriptor over once. -/
theorem lateOutput_once : Launch dma32 lateOutput 0 2 ∧
    ∀ c, handovers dma32 lateOutput 0 2 c = 1 :=
  ⟨by decide, (launch_once_iff (by decide)).mpr (by decide)⟩

end AxisSystolic
