import AxisSystolic.Sa.Frame

/-!
# The output registers

A packet that has arrived at diagonal `d` is captured into the output registers
of that diagonal, and once it has been captured on the last diagonal its `C`
columns are shifted out to the right.  `Shifting s h n k` says that packet `n`
is being handed over and `k` of its `C` beats are gone: the registers of
diagonal `d` hold packet `n` from `d = k` on, the end marker of `r_last` stands
at `k`, and below `k` packet `n + 1` may already have been captured.

This is an invariant of the steps that obey two rules.

* `CaptureOk`: a stalled cycle captures nothing.  `a_valid` stands still in a
  stall, so a result captured then would be captured a second time.
* `HandoverOk`: no beat is handed over while diagonal `0` holds packet `n + 1`
  and packet `n` is not finished.  `r_last[0]` is `r_valid[0]`, so such a beat
  starts the end marker of packet `n + 1` and drops its first column.

The source enforces neither.
-/

namespace AxisSystolic

open Sync

variable {p : SaParams}

/-! ### What a clock edge does to the output registers -/

namespace AxisSa

variable {s : AxisSa p} {i : SaIn p}

theorem enShift_iff : s.enShift i = true ↔ s.mValid = true ∧ i.mReady = true := by
  simp [enShift]

theorem rClear_iff (d : ℕ) :
    s.rClear i d = true ↔ s.enShift i = true ∧ s.rLast d = true := by
  simp [rClear]

theorem step_rValid_iff (d : ℕ) : (s.step i).rValid d = true ↔
    ¬ (p.C - 1 ≤ d ∧ s.enShift i = true ∧ s.mLast = true) ∧
      (s.rCopy i d = true ∨ (s.rValid d = true ∧ ¬ (s.enShift i = true ∧ s.rLast d = true))) := by
  rw [← rClear_iff]
  simp only [step]
  by_cases hd : p.C - 1 ≤ d ∧ s.enShift i = true ∧ s.mLast = true
  · rw [if_pos hd]
    exact ⟨fun hf => absurd hf Bool.false_ne_true, fun hn => absurd hd hn.1⟩
  · rw [if_neg hd]
    simp only [hd, not_false_eq_true, true_and]
    cases s.rCopy i d <;> cases s.rClear i d <;> simp

theorem step_rValid_of_hold (he : s.enShift i = false) (d : ℕ) :
    (s.step i).rValid d = true ↔ s.rCopy i d = true ∨ s.rValid d = true := by
  simp [step_rValid_iff, he]

theorem step_rLastReg_of_hold (he : s.enShift i = false) (d : ℕ) :
    (s.step i).rLastReg d = s.rLastReg d := by
  simp [step, he]

theorem step_rLastReg_iff (he : s.enShift i = true) (d : ℕ) : (s.step i).rLastReg d = true ↔
    ¬ (p.C - 1 ≤ d ∧ s.mLast = true) ∧ s.rLast (d - 1) = true := by
  simp only [step, he, if_true]
  by_cases hd : p.C - 1 ≤ d ∧ s.mLast = true
  · rw [if_pos hd]
    exact ⟨fun hf => absurd hf Bool.false_ne_true, fun hn => absurd hd hn.1⟩
  · rw [if_neg hd]
    simp only [hd, not_false_eq_true, true_and]

theorem step_ro (r c : ℕ) : ((s.step i).pe r c).ro =
    if s.rCopy i (r + c) then (s.pe r c).mac.y p.LA
    else if s.enShift i then s.ri r c else (s.pe r c).ro := rfl

theorem rLast_zero : s.rLast 0 = s.rValid 0 := rfl

theorem rLast_of_pos {d : ℕ} (hd : 1 ≤ d) : s.rLast d = s.rLastReg d := by
  rw [rLast, if_neg (by omega)]

/-- The array moves if no diagonal has a conflict or a register stall. -/
theorem enMac_iff : s.enMac i = true ↔
    (∀ d < p.D, s.conflict d = false) ∧ ∀ d < p.D, s.regStall i d = false := by
  simp [enMac]

end AxisSa

theorem SaParams.C_le_D (p : SaParams) : p.C ≤ p.D := by
  have := p.R_pos
  rw [SaParams.D]
  omega

theorem SaParams.D_pos (p : SaParams) : 1 ≤ p.D := p.C_pos.trans p.C_le_D

/-! ### The rules -/

/-- A stalled cycle captures nothing. -/
def CaptureOk (s : AxisSa p) (i : SaIn p) : Prop :=
  s.enMac i = false → ∀ d < p.D, s.rCopy i d = false

/-- A beat is handed over with `r_valid[0]` high only if no end marker is under
way, so only as the first beat of its packet. -/
def HandoverOk (s : AxisSa p) (i : SaIn p) : Prop :=
  s.enShift i = true → s.rValid 0 = true → ∀ d < p.C, 1 ≤ d → s.rLastReg d = false

instance (s : AxisSa p) (i : SaIn p) : Decidable (CaptureOk s i) :=
  inferInstanceAs (Decidable (_ → ∀ d < p.D, _))

instance (s : AxisSa p) (i : SaIn p) : Decidable (HandoverOk s i) :=
  inferInstanceAs (Decidable (_ → _ → ∀ d < p.C, _ → _))

/-! ### The invariant -/

/-- Packet `n` is being handed over, and `k` of its beats are gone. -/
structure Shifting (s : AxisSa p) (h : List (Beat p)) (n k : ℕ) : Prop where
  k_lt : k < p.C
  older : ∀ m < n, Captured h m (p.D - 1)
  started : k ≠ 0 → Captured h n (p.D - 1)
  newer : ∀ d, Captured h (n + 1) d → d < k
  newest : ¬ Captured h (n + 2) 0
  rValid : ∀ d < p.D, s.rValid d = true ↔ (Captured h n d ∧ k ≤ d) ∨ Captured h (n + 1) d
  rLastReg : ∀ d, 1 ≤ d → (s.rLastReg d = true ↔ d = k)

theorem shifting_reset : Shifting (AxisSa.reset p) [] 0 0 where
  k_lt := p.C_pos
  older m hm := absurd hm (Nat.not_lt_zero m)
  started h := absurd rfl h
  newer d h := absurd h not_captured_nil
  newest := not_captured_nil
  rValid d _ := by simp [AxisSa.reset, not_captured_nil]
  rLastReg d hd := by
    simp only [AxisSa.reset, Bool.false_eq_true, false_iff]
    omega

namespace Shifting

variable {s : AxisSa p} {i : SaIn p} {h : List (Beat p)} {n k d m : ℕ}

/-- `m_valid` says that packet `n` has been captured on all diagonals. -/
theorem mValid_iff (hs : Shifting s h n k) : s.mValid = true ↔ Captured h n (p.D - 1) := by
  have hk := hs.k_lt
  have hCD := p.C_le_D
  rw [AxisSa.mValid, hs.rValid _ (by have := p.D_pos; omega)]
  refine ⟨?_, ?_⟩
  · rintro (⟨hc, _⟩ | hc)
    · exact hc
    · have := hs.newer _ hc
      omega
  · intro hc
    exact Or.inl ⟨hc, by omega⟩

/-- `m_last` marks the last of the `C` beats. -/
theorem mLast_iff (hs : Shifting s h n k) (hv : s.mValid = true) :
    s.mLast = true ↔ k + 1 = p.C := by
  have hk := hs.k_lt
  have hcap := hs.mValid_iff.mp hv
  rw [AxisSa.mLast]
  rcases Nat.eq_or_lt_of_le p.C_pos with hC | hC
  · -- one column: the marker is `r_valid[0]`, and packet `n` is on all diagonals
    have hk0 : k = 0 := by omega
    rw [← hC, Nat.sub_self, AxisSa.rLast_zero, hs.rValid 0 p.D_pos]
    simp [hk0, hcap.mono (Nat.zero_le _)]
  · rw [AxisSa.rLast_of_pos (by omega), hs.rLastReg _ (by omega)]
    omega

/-- From diagonal `C - 1` on no register is free while a beat is offered. -/
theorem not_regStall (hs : Shifting s h n k) (hd : d < p.D) : s.regStall i d = false := by
  by_contra hne
  have hst : s.canCopy d = true ∧ s.mStall i d = true := by simpa [AxisSa.regStall] using hne
  obtain ⟨hcopy, hstall⟩ := hst
  simp only [AxisSa.mStall, Bool.and_eq_true, decide_eq_true_eq] at hstall
  have hcap := hs.mValid_iff.mp hstall.1.2
  have hk := hs.k_lt
  have hfull : s.rValid d = true :=
    (hs.rValid d hd).mpr (Or.inl ⟨hcap.mono (by omega), by omega⟩)
  simp [AxisSa.canCopy, hfull] at hcopy

/-- So only conflicts stall the array. -/
theorem enMac_iff (hs : Shifting s h n k) :
    s.enMac i = true ↔ ∀ d < p.D, s.aValid d = true → s.rValid d = false := by
  rw [AxisSa.enMac_iff]
  refine ⟨?_, ?_⟩
  · intro hc d hd ha
    simpa [AxisSa.conflict, ha] using hc.1 d hd
  · intro hc
    refine ⟨fun d hd => ?_, fun d hd => hs.not_regStall hd⟩
    cases ha : s.aValid d with
    | false => simp [AxisSa.conflict, ha]
    | true => simp [AxisSa.conflict, hc d hd ha]

/-- In a moving cycle a packet arrives either as the one handed over, before its
first beat, or as the next one, behind the beats that are gone. -/
theorem arrived_cases (hs : Shifting s h n k) (ha : Aligned s h) (hen : s.enMac i = true)
    (hd : d < p.D) (harr : Arrived h m d) : (m = n ∧ k = 0) ∨ (m = n + 1 ∧ d < k) := by
  have hfree : s.rValid d = false := hs.enMac_iff.mp hen d hd ((ha.aValid_iff d).mpr ⟨m, harr⟩)
  have hnot : ¬ ((Captured h n d ∧ k ≤ d) ∨ Captured h (n + 1) d) := by
    rw [← hs.rValid d hd, hfree]
    simp
  rcases Nat.lt_trichotomy m n with hm | rfl | hm
  · exact absurd ((hs.older m hm).mono (by omega)) harr.not_captured
  · left
    refine ⟨rfl, by_contra fun hk => harr.not_captured ((hs.started hk).mono (by omega))⟩
  · right
    have hm1 : m = n + 1 := by
      by_contra hne
      exact hnot (Or.inr (harr.captured_earlier (by omega)))
    subst hm1
    refine ⟨rfl, by_contra fun hk => hnot (Or.inl ⟨harr.captured_earlier hm, by omega⟩)⟩

end Shifting

/-! ### One cycle -/

/-- The history after a cycle. -/
def nextHistory (s : AxisSa p) (i : SaIn p) (h : List (Beat p)) : List (Beat p) :=
  (s.moved i).toList ++ h

theorem history_succ (u : ℕ → SaIn p) (t : ℕ) :
    history p u (t + 1) = nextHistory ((axisSa p).state u t) (u t) (history p u t) := rfl

/-- Packet `m` is captured on diagonal `d` in this cycle. -/
def Captures (s : AxisSa p) (i : SaIn p) (h : List (Beat p)) (m d : ℕ) : Prop :=
  s.enMac i = true ∧ Arrived h m d

section Step

variable {s : AxisSa p} {i : SaIn p} {h : List (Beat p)} {n k d m : ℕ}

theorem captured_next : Captured (nextHistory s i h) m d ↔ Captured h m d ∨ Captures s i h m d := by
  cases hen : s.enMac i with
  | false => simp [nextHistory, AxisSa.moved_of_stall hen, Captures, hen]
  | true => simp [nextHistory, AxisSa.moved_of_enMac hen, Captures, hen, captured_cons]

theorem Captured.next (hc : Captured h m d) : Captured (nextHistory s i h) m d :=
  captured_next.mpr (Or.inl hc)

theorem resultAt_next (hm : m < (packetEnds h).length) (r c : ℕ) :
    resultAt (nextHistory s i h) m r c = resultAt h m r c := by
  cases hen : s.enMac i with
  | false => simp [nextHistory, AxisSa.moved_of_stall hen]
  | true => simpa [nextHistory, AxisSa.moved_of_enMac hen] using resultAt_cons i.toBeat hm r c

theorem Captures.lt (hc : Captures s i h (n + 1) d) (hs : Shifting s h n k) (ha : Aligned s h) :
    d < k := by
  rcases Nat.lt_or_ge d p.D with hd | hd
  · rcases hs.arrived_cases ha hc.1 hd hc.2 with ⟨hm, _⟩ | ⟨_, hlt⟩
    · omega
    · exact hlt
  · have hpos := p.D_pos
    have hlt := hs.newer _ (hc.2.captured_of_lt (show p.D - 1 < d by omega))
    have hk := hs.k_lt
    have hCD := p.C_le_D
    omega

theorem Shifting.rCopy_iff (hs : Shifting s h n k) (ha : Aligned s h) (hok : CaptureOk s i)
    (hd : d < p.D) :
    s.rCopy i d = true ↔ Captures s i h n d ∨ Captures s i h (n + 1) d := by
  cases hen : s.enMac i with
  | false => simp [hok hen d hd, Captures, hen]
  | true =>
    have hstall := hs.not_regStall (i := i) hd
    have hcopy : s.rCopy i d = s.aValid d := by
      cases hav : s.aValid d with
      | false => simp [AxisSa.rCopy, AxisSa.canCopy, hav]
      | true =>
        have hfree := hs.enMac_iff.mp hen d hd hav
        simp_all [AxisSa.rCopy, AxisSa.canCopy, AxisSa.regStall]
    rw [hcopy, ha.aValid_iff]
    simp only [Captures, hen, true_and]
    refine ⟨?_, ?_⟩
    · rintro ⟨m, harr⟩
      rcases hs.arrived_cases ha hen hd harr with ⟨rfl, _⟩ | ⟨rfl, _⟩
      · exact Or.inl harr
      · exact Or.inr harr
    · rintro (harr | harr)
      · exact ⟨_, harr⟩
      · exact ⟨_, harr⟩

theorem Shifting.not_captures_newest (hs : Shifting s h n k) (ha : Aligned s h) :
    ¬ Captures s i h (n + 2) 0 := by
  intro hc
  rcases hs.arrived_cases ha hc.1 p.D_pos hc.2 with ⟨hm, _⟩ | ⟨hm, _⟩ <;> omega

theorem Shifting.newest_next (hs : Shifting s h n k) (ha : Aligned s h) :
    ¬ Captured (nextHistory s i h) (n + 2) 0 := by
  rw [captured_next]
  rintro (hc | hc)
  · exact hs.newest hc
  · exact hs.not_captures_newest ha hc

/-- A cycle that hands over no beat. -/
theorem Shifting.step_hold (hs : Shifting s h n k) (ha : Aligned s h) (hok : CaptureOk s i)
    (he : s.enShift i = false) : Shifting (s.step i) (nextHistory s i h) n k where
  k_lt := hs.k_lt
  older m hm := (hs.older m hm).next
  started hk := (hs.started hk).next
  newer d hc := by
    rcases captured_next.mp hc with hc | hc
    · exact hs.newer d hc
    · exact hc.lt hs ha
  newest := hs.newest_next ha
  rLastReg d hd := by
    rw [AxisSa.step_rLastReg_of_hold he]
    exact hs.rLastReg d hd
  rValid d hd := by
    rw [AxisSa.step_rValid_of_hold he, hs.rCopy_iff ha hok hd, hs.rValid d hd, captured_next,
      captured_next]
    have hfirst : Captures s i h n d → k = 0 := by
      intro hc
      rcases hs.arrived_cases ha hc.1 hd hc.2 with ⟨_, hk⟩ | ⟨hm, _⟩
      · exact hk
      · omega
    refine ⟨?_, ?_⟩
    · rintro ((hc | hc) | (⟨hc, hk⟩ | hc))
      · exact Or.inl ⟨Or.inr hc, by rw [hfirst hc]; exact Nat.zero_le d⟩
      · exact Or.inr (Or.inr hc)
      · exact Or.inl ⟨Or.inl hc, hk⟩
      · exact Or.inr (Or.inl hc)
    · rintro (⟨hc | hc, hk⟩ | (hc | hc))
      · exact Or.inr (Or.inl ⟨hc, hk⟩)
      · exact Or.inl (Or.inl hc)
      · exact Or.inr (Or.inr hc)
      · exact Or.inl (Or.inr hc)

/-- When a beat is handed over, packet `n + 1` has been captured nowhere. -/
theorem Shifting.next_not_captured (hs : Shifting s h n k) (hok : HandoverOk s i)
    (he : s.enShift i = true) : ¬ Captured h (n + 1) d := by
  intro hc
  have hlt := hs.newer d hc
  have hzero : s.rValid 0 = true :=
    (hs.rValid 0 p.D_pos).mpr (Or.inr (hc.mono (Nat.zero_le d)))
  have hoff := hok he hzero k hs.k_lt (by omega)
  rw [(hs.rLastReg k (by omega)).mpr rfl] at hoff
  cases hoff

/-- In a cycle that hands over a beat, only packet `n + 1` is captured, and only
on diagonal `0`. -/
theorem Shifting.captures_of_shift (hs : Shifting s h n k) (hok : HandoverOk s i)
    (he : s.enShift i = true) (hc : Captures s i h (n + 1) d) : d = 0 := by
  by_contra hd
  exact hs.next_not_captured hok he (hc.2.captured_of_lt (show d - 1 < d by omega))

theorem Shifting.not_captures_of_shift (hs : Shifting s h n k) (he : s.enShift i = true)
    (hd : d < p.D) : ¬ Captures s i h n d := fun hc =>
  hc.2.not_captured ((hs.mValid_iff.mp (AxisSa.enShift_iff.mp he).1).mono (by omega))

/-- While a beat is handed over, the marker stands at diagonal `k`. -/
theorem Shifting.rLast_iff_of_shift (hs : Shifting s h n k) (hok : HandoverOk s i)
    (he : s.enShift i = true) : s.rLast d = true ↔ d = k := by
  rcases Nat.eq_zero_or_pos d with rfl | hd
  · have hcap := (hs.mValid_iff.mp (AxisSa.enShift_iff.mp he).1).mono (Nat.zero_le (p.D - 1))
    have hnot := hs.next_not_captured (d := 0) hok he
    rw [AxisSa.rLast_zero, hs.rValid 0 p.D_pos]
    simp only [hcap, hnot, true_and, or_false]
    omega
  · rw [AxisSa.rLast_of_pos hd, hs.rLastReg d hd]

/-- A cycle that hands over a beat, but not the last of its packet. -/
theorem Shifting.step_shift (hs : Shifting s h n k) (ha : Aligned s h) (hcap : CaptureOk s i)
    (hok : HandoverOk s i) (he : s.enShift i = true) (hk : k + 1 < p.C) :
    Shifting (s.step i) (nextHistory s i h) n (k + 1) := by
  have hv := (AxisSa.enShift_iff.mp he).1
  have hn := hs.mValid_iff.mp hv
  have hlast : s.mLast = false := by
    rw [← Bool.not_eq_true, hs.mLast_iff hv]
    omega
  refine ⟨hk, fun m hm => (hs.older m hm).next, fun _ => hn.next, fun d hc => ?_,
    hs.newest_next ha, fun d hd => ?_, fun d hd => ?_⟩
  · rcases captured_next.mp hc with hc | hc
    · exact Nat.lt_succ_of_lt (hs.newer d hc)
    · exact Nat.lt_succ_of_lt (hc.lt hs ha)
  · rw [AxisSa.step_rValid_iff, hlast, he, hs.rCopy_iff ha hcap hd, hs.rValid d hd,
      hs.rLast_iff_of_shift hok he, captured_next, captured_next]
    have h1 := hs.not_captures_of_shift (i := i) he hd
    have h2 := hs.next_not_captured (d := d) hok he
    have h3 : Captured h n d := hn.mono (by omega)
    simp only [h1, h2, h3, Bool.false_eq_true, and_false, not_false_eq_true, true_and, false_or,
      or_false]
    refine ⟨?_, ?_⟩
    · rintro (hc | ⟨hle, hne⟩)
      · exact Or.inr hc
      · exact Or.inl (by omega)
    · rintro (hle | hc)
      · exact Or.inr ⟨by omega, by omega⟩
      · exact Or.inl hc
  · rw [AxisSa.step_rLastReg_iff he, hlast, hs.rLast_iff_of_shift hok he]
    simp only [Bool.false_eq_true, and_false, not_false_eq_true, true_and]
    omega

/-- The cycle that hands over the last beat of a packet. -/
theorem Shifting.step_last (hs : Shifting s h n k) (ha : Aligned s h) (hcap : CaptureOk s i)
    (hok : HandoverOk s i) (he : s.enShift i = true) (hk : k + 1 = p.C) :
    Shifting (s.step i) (nextHistory s i h) (n + 1) 0 := by
  have hv := (AxisSa.enShift_iff.mp he).1
  have hn := hs.mValid_iff.mp hv
  have hlast : s.mLast = true := (hs.mLast_iff hv).mpr hk
  have hnewest := hs.newest_next (i := i) ha
  refine ⟨p.C_pos, fun m hm => ?_, fun hk0 => absurd rfl hk0, fun d hc => ?_, fun hc => ?_,
    fun d hd => ?_, fun d hd => ?_⟩
  · rcases Nat.eq_or_lt_of_le (Nat.le_of_lt_succ hm) with rfl | hm
    · exact hn.next
    · exact (hs.older m hm).next
  · exact absurd (hc.mono (Nat.zero_le d)) hnewest
  · exact hnewest (hc.of_le (by omega))
  · rw [AxisSa.step_rValid_iff, hlast, he, hs.rCopy_iff ha hcap hd, hs.rValid d hd,
      hs.rLast_iff_of_shift hok he, captured_next]
    have h1 := hs.not_captures_of_shift (i := i) he hd
    have h2 := hs.next_not_captured (d := d) hok he
    have h3 : ¬ Captured (nextHistory s i h) (n + 1 + 1) d :=
      fun hc => hnewest (hc.mono (Nat.zero_le d))
    simp only [h1, h2, h3, and_true, false_or, or_false, Nat.zero_le]
    refine ⟨?_, ?_⟩
    · rintro ⟨hnc, hc | ⟨⟨_, hle⟩, hne⟩⟩
      · exact hc
      · omega
    · intro hc
      -- packet `n + 1` is captured below the columns of packet `n`
      have hlt := hc.lt hs ha
      exact ⟨by omega, Or.inl hc⟩
  · rw [AxisSa.step_rLastReg_iff he, hlast, hs.rLast_iff_of_shift hok he]
    simp only [and_true]
    omega

end Step

end AxisSystolic
