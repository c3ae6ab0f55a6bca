import AxisSystolic.Sa.Stream

/-!
# The array keeps moving

`a_valid` is a wave: the bit of a packet travels from diagonal `0` to `D - 1`.
If the last beats of the packets are at least `D` moves apart (`SpacedOk`) there
is at most one wave (`OneWave`), and the array never waits for itself: without a
beat on offer no diagonal has a conflict, so `s_ready` or `m_valid` is high
(`sReady_or_mValid`).  Packets of at least `D` beats are spaced.

The invariant `Live` is about the end markers `r_last[d]` and the registers that
are full.  A full register that a wave is not about to overtake has all markers
behind it; that much holds for every schedule of `m_ready`, even when beats of
a packet get lost (`HandoverOk` is not assumed).
-/

namespace AxisSystolic

open Sync

variable {p : SaParams}

/-! ### Waves -/

/-- A wave is on its way at diagonal `d` or further. -/
def WaveFrom (s : AxisSa p) (d : ℕ) : Prop := ∃ w, d ≤ w ∧ w < p.D ∧ s.aValid w = true

def OneWave (s : AxisSa p) : Prop :=
  ∀ d < p.D, ∀ w < p.D, s.aValid d = true → s.aValid w = true → d = w

theorem WaveFrom.mono {s : AxisSa p} {d d' : ℕ} (h : WaveFrom s d) (hd : d' ≤ d) :
    WaveFrom s d' := by
  obtain ⟨w, hw, hwD, ha⟩ := h
  exact ⟨w, hd.trans hw, hwD, ha⟩

/-- One wave is not at two places. -/
theorem OneWave.not_waveFrom {s : AxisSa p} (ho : OneWave s) {d : ℕ} (hd : d < p.D)
    (ha : s.aValid d = true) : ¬ WaveFrom s (d + 1) := by
  rintro ⟨w, hw, hwD, hav⟩
  have := ho d hd w hwD ha hav
  omega

/-- The last beat of a packet is taken only with `vlast[1]` to `vlast[D-1]` low,
so at least `D` moves after the last beat of the packet before. -/
def SpacedOk (s : AxisSa p) (i : SaIn p) : Prop :=
  s.enMac i = true → i.sValid = true → i.sLast = true → ∀ d < p.D - 1, s.vlast d = false

instance (s : AxisSa p) (i : SaIn p) : Decidable (SpacedOk s i) :=
  inferInstanceAs (Decidable (_ → _ → _ → ∀ d < p.D - 1, _))

/-- The last beats of the history are at least `D` moves apart. -/
def Spaced (h : List (Beat p)) : Prop :=
  ∀ j k, j < k → k < j + p.D → (entry h j).isEnd = true → (entry h k).isEnd = false

theorem spaced_run {u : ℕ → SaIn p} {t : ℕ} (hr : (axisSa p).Obeys SpacedOk u t) :
    Spaced (history p u t) := by
  refine Machine.invariant_of_rule (P := fun n _ => Spaced (history p u n)) hr
    (fun _ _ _ _ _ => rfl) fun n hn ih => ?_
  rw [history, Machine.past_succ]
  cases hen : ((axisSa p).state u n).enMac (u n) with
  | false => rw [AxisSa.moved_of_stall hen]; exact ih
  | true =>
    rw [AxisSa.moved_of_enMac hen]
    intro j k hjk hkD hj
    obtain ⟨k, rfl⟩ : ∃ k', k = k' + 1 := ⟨k - 1, by omega⟩
    cases j with
    | succ j => exact ih j k (by omega) (by omega) hj
    | zero =>
      have hj' : (u n).sValid = true ∧ (u n).sLast = true := by
        simpa [Beat.isEnd] using hj
      exact ((aligned_run u n).vlast k).symm.trans (hn hen hj'.1 hj'.2 k (by omega))

theorem Spaced.oneWave {s : AxisSa p} {h : List (Beat p)} (hsp : Spaced h) (ha : Aligned s h) :
    OneWave s := by
  have hpos := p.LM_pos
  have hlt : ∀ d w, d < w → w < p.D → s.aValid d = true → s.aValid w = false := by
    intro d w hdw hw hd
    rw [ha.aValid] at hd ⊢
    exact hsp _ _ (by omega) (by omega) hd
  intro d hd w hw hav haw
  rcases Nat.lt_trichotomy d w with hdw | hdw | hdw
  · rw [hlt d w hdw hw hav] at haw
    cases haw
  · exact hdw
  · rw [hlt w d hdw hd haw] at hav
    cases hav

/-! ### The invariant -/

/-- Where the markers and the full registers are. -/
structure Live (s : AxisSa p) : Prop where
  marker_lt : ∀ j, s.rLast j = true → j < p.C
  /-- Without a beat on offer a wave comes to every full register from behind. -/
  full_idle : s.mValid = false → ∀ d < p.D, s.rValid d = true → WaveFrom s (d + 1)
  /-- So it does where a marker is ahead. -/
  full_marker : ∀ d < p.D, s.rValid d = true → ∀ j, d < j → s.rLast j = true → WaveFrom s (d + 1)
  idle_le : s.mValid = false → ∀ d < p.D, s.rValid d = true → ∀ j, s.rLast j = true → j ≤ d
  idle_wave : s.mValid = false → ∀ j, s.rLast j = true → WaveFrom s j
  /-- Two markers are neighbours, or the wave is between them and nothing is
  behind. -/
  pair : ∀ j k, j < k → s.rLast j = true → s.rLast k = true → s.mValid = true ∧ WaveFrom s 1 ∧
    (k = j + 1 ∨ (WaveFrom s (j + 1) ∧ ∀ d < j, s.rValid d = false))
  triple : ∀ i j k, i < j → j < k → s.rLast i = true → s.rLast j = true → s.rLast k = false

theorem live_reset : Live (AxisSa.reset p) where
  marker_lt j h := by simp [AxisSa.rLast, AxisSa.reset] at h
  full_idle _ d _ h := by simp [AxisSa.reset] at h
  full_marker d _ h := by simp [AxisSa.reset] at h
  idle_le _ d _ h := by simp [AxisSa.reset] at h
  idle_wave _ j h := by simp [AxisSa.rLast, AxisSa.reset] at h
  pair j k _ h := by simp [AxisSa.rLast, AxisSa.reset] at h
  triple i j k _ _ h := by simp [AxisSa.rLast, AxisSa.reset] at h

/-! ### Moves of the wave -/

section Step

variable {s : AxisSa p} {i : SaIn p} {h : List (Beat p)} {d : ℕ}

theorem Aligned.step_aValid_succ (ha : Aligned s h) (hen : s.enMac i = true) (d : ℕ) :
    (s.step i).aValid (d + 1) = s.aValid d := by
  have hpos := p.LM_pos
  rw [(ha.step_move hen).aValid, ha.aValid]
  have hidx : p.LM + p.LA + (d + 1) - 1 = (p.LM + p.LA + d - 1) + 1 := by omega
  rw [hidx, entry_succ]

theorem AxisSa.step_aValid_of_stall (hen : s.enMac i = false) (d : ℕ) :
    (s.step i).aValid d = s.aValid d := by
  simp [AxisSa.step, hen]

/-- A full register stops the wave in front of it. -/
theorem enMac_of_full (hd : d < p.D) (ha : s.aValid d = true) (hv : s.rValid d = true) :
    s.enMac i = false := by
  by_contra hen
  have hfree := (AxisSa.enMac_iff.mp (Bool.not_eq_false _ ▸ hen)).1 d hd
  simp [AxisSa.conflict, ha, hv] at hfree

/-- While a beat is on offer the wave does not leave the array. -/
theorem WaveFrom.next (hw : WaveFrom s d) (ha : Aligned s h) (hv : s.mValid = true) :
    WaveFrom (s.step i) d := by
  obtain ⟨w, hdw, hwD, hav⟩ := hw
  cases hen : s.enMac i with
  | false => exact ⟨w, hdw, hwD, by rw [AxisSa.step_aValid_of_stall hen, hav]⟩
  | true =>
    have hlast : w ≠ p.D - 1 := by
      rintro rfl
      rw [enMac_of_full hwD hav hv] at hen
      cases hen
    exact ⟨w + 1, by omega, by omega, by rw [ha.step_aValid_succ hen, hav]⟩

/-- A wave that is captured moves on. -/
theorem OneWave.enMac_of_rCopy (ho : OneWave s) (hd : d < p.D) (hc : s.rCopy i d = true) :
    s.enMac i = true := by
  simp only [AxisSa.rCopy, AxisSa.canCopy, Bool.and_eq_true, Bool.not_eq_true'] at hc
  obtain ⟨⟨hav, hrv⟩, hst⟩ := hc
  rw [AxisSa.enMac_iff]
  refine ⟨fun w hw => ?_, fun w hw => ?_⟩
  · cases haw : s.aValid w with
    | false => simp [AxisSa.conflict, haw]
    | true => rw [AxisSa.conflict, ← ho d hd w hw hav haw, hrv, Bool.and_false]
  · cases haw : s.aValid w with
    | false => simp [AxisSa.regStall, AxisSa.canCopy, haw]
    | true => rw [AxisSa.regStall, ← ho d hd w hw hav haw, hst, Bool.and_false]

theorem AxisSa.aValid_of_rCopy (hc : s.rCopy i d = true) : s.aValid d = true := by
  simp only [AxisSa.rCopy, AxisSa.canCopy, Bool.and_eq_true] at hc
  exact hc.1.1

theorem AxisSa.rValid_of_rCopy (hc : s.rCopy i d = true) : s.rValid d = false := by
  simp only [AxisSa.rCopy, AxisSa.canCopy, Bool.and_eq_true, Bool.not_eq_true'] at hc
  exact hc.1.2

theorem waveFrom_of_rCopy (ha : Aligned s h) (ho : OneWave s) (hd : d + 1 < p.D)
    (hc : s.rCopy i d = true) : WaveFrom (s.step i) (d + 1) :=
  ⟨d + 1, Nat.le_refl _, hd, by
    rw [ha.step_aValid_succ (ho.enMac_of_rCopy (by omega) hc), AxisSa.aValid_of_rCopy hc]⟩

theorem waveFrom_of_rCopy_busy (ha : Aligned s h) (ho : OneWave s) (hv : s.mValid = true)
    (hd : d < p.D) (hc : s.rCopy i d = true) : WaveFrom (s.step i) (d + 1) := by
  refine waveFrom_of_rCopy ha ho ?_ hc
  have hlast : d ≠ p.D - 1 := by
    rintro rfl
    exact absurd ((AxisSa.rValid_of_rCopy hc).symm.trans hv) Bool.false_ne_true
  omega

/-! ### A cycle without a beat on offer -/

theorem Live.enMac_of_idle (hl : Live s) (ho : OneWave s) (hv : s.mValid = false) :
    s.enMac i = true := by
  rw [AxisSa.enMac_iff]
  refine ⟨fun d hd => ?_, fun d _ => by simp [AxisSa.regStall, AxisSa.mStall, hv]⟩
  cases hav : s.aValid d with
  | false => simp [AxisSa.conflict, hav]
  | true =>
    cases hrv : s.rValid d with
    | false => simp [AxisSa.conflict, hrv]
    | true => exact absurd (hl.full_idle hv d hd hrv) (ho.not_waveFrom hd hav)

/-- The wave moves on, or arrives. -/
theorem WaveFrom.next_of_idle (hw : WaveFrom s d) (ha : Aligned s h) (hen : s.enMac i = true)
    (hv : s.mValid = false) (hv' : (s.step i).mValid = false) : WaveFrom (s.step i) (d + 1) := by
  obtain ⟨w, hdw, hwD, hav⟩ := hw
  have hlast : w ≠ p.D - 1 := by
    rintro rfl
    have hcopy : s.rCopy i (p.D - 1) = true := by
      have hv0 : s.rValid (p.D - 1) = false := hv
      simp [AxisSa.rCopy, AxisSa.canCopy, AxisSa.mStall, hav, hv0, hv]
    have hset : (s.step i).mValid = true :=
      (AxisSa.step_rValid_of_hold (by simp [AxisSa.enShift, hv]) _).mpr (Or.inl hcopy)
    rw [hset] at hv'
    cases hv'
  exact ⟨w + 1, by omega, by omega, by rw [ha.step_aValid_succ hen, hav]⟩

theorem AxisSa.step_rLast_of_hold (he : s.enShift i = false) {j : ℕ} (hj : 1 ≤ j) :
    (s.step i).rLast j = s.rLast j := by
  rw [rLast_of_pos hj, rLast_of_pos hj, step_rLastReg_of_hold he]

theorem Live.step_idle (hl : Live s) (ha : Aligned s h) (ho : OneWave s)
    (hv : s.mValid = false) : Live (s.step i) := by
  have he : s.enShift i = false := by simp [AxisSa.enShift, hv]
  have hen := hl.enMac_of_idle (i := i) ho hv
  -- a marker ahead of a full register would have to be behind the wave
  have hbehind : ∀ d < p.D, (s.step i).rValid d = true → ∀ j, d < j →
      (s.step i).rLast j = true → False := by
    intro d hd hrv j hdj hj
    rw [AxisSa.step_rLast_of_hold he (by omega)] at hj
    rcases (AxisSa.step_rValid_of_hold he d).mp hrv with hc | hrv
    · exact ho.not_waveFrom hd (AxisSa.aValid_of_rCopy hc) ((hl.idle_wave hv j hj).mono (by omega))
    · have := hl.idle_le hv d hd hrv j hj
      omega
  have hfull : (s.step i).mValid = false → ∀ d < p.D, (s.step i).rValid d = true →
      WaveFrom (s.step i) (d + 1) := by
    intro hv' d hd hrv
    rcases (AxisSa.step_rValid_of_hold he d).mp hrv with hc | hrv
    · have hw : WaveFrom s d := ⟨d, Nat.le_refl d, hd, AxisSa.aValid_of_rCopy hc⟩
      exact hw.next_of_idle ha hen hv hv'
    · exact ((hl.full_idle hv d hd hrv).next_of_idle ha hen hv hv').mono (by omega)
  have hpair : ∀ j k, j < k → (s.step i).rLast j = true → (s.step i).rLast k = true → False := by
    intro j k hjk hj hk
    rcases Nat.eq_zero_or_pos j with rfl | hpos
    · exact hbehind 0 p.D_pos hj k hjk hk
    · rw [AxisSa.step_rLast_of_hold he hpos] at hj
      rw [AxisSa.step_rLast_of_hold he (by omega)] at hk
      rw [(hl.pair j k hjk hj hk).1] at hv
      cases hv
  refine ⟨fun j hj => ?_, hfull, fun d hd hrv j hdj hj => ?_, fun _ d hd hrv j hj => ?_,
    fun hv' j hj => ?_, fun j k hjk hj hk => ?_, fun i' j k hij hjk hi' hj => ?_⟩
  · rcases Nat.eq_zero_or_pos j with rfl | hpos
    · exact p.C_pos
    · rw [AxisSa.step_rLast_of_hold he hpos] at hj
      exact hl.marker_lt j hj
  · exact (hbehind d hd hrv j hdj hj).elim
  · exact Nat.le_of_not_lt fun hdj => hbehind d hd hrv j hdj hj
  · rcases Nat.eq_zero_or_pos j with rfl | hpos
    · exact (hfull hv' 0 p.D_pos hj).mono (Nat.zero_le 1)
    · rw [AxisSa.step_rLast_of_hold he hpos] at hj
      exact ((hl.idle_wave hv j hj).next_of_idle ha hen hv hv').mono (Nat.le_succ j)
  · exact (hpair j k hjk hj hk).elim
  · exact (hpair i' j hij hi' hj).elim

/-! ### A cycle with a beat on offer that is not taken -/

theorem Live.step_wait (hl : Live s) (ha : Aligned s h) (ho : OneWave s) (hv : s.mValid = true)
    (he : s.enShift i = false) : Live (s.step i) := by
  have hv' : (s.step i).mValid = true := (AxisSa.step_rValid_of_hold he _).mpr (Or.inr hv)
  have hbusy : (s.step i).mValid = false → False := fun hf => by rw [hv'] at hf; cases hf
  have hone : ∀ d < p.D, s.rCopy i d = true → ¬ WaveFrom s (d + 1) := fun d hd hc =>
    ho.not_waveFrom hd (AxisSa.aValid_of_rCopy hc)
  -- the marker `0` is a full register, old or new
  have hzero : (s.step i).rLast 0 = true → s.rCopy i 0 = true ∨ s.rLast 0 = true :=
    (AxisSa.step_rValid_of_hold he 0).mp
  have hold : ∀ j, 1 ≤ j → (s.step i).rLast j = true → s.rLast j = true := fun j hj h => by
    rwa [AxisSa.step_rLast_of_hold he hj] at h
  refine ⟨fun j hj => ?_, fun hf => (hbusy hf).elim, fun d hd hrv j hdj hj => ?_,
    fun hf => (hbusy hf).elim, fun hf => (hbusy hf).elim, fun j k hjk hj hk => ?_,
    fun i' j k hij hjk hi' hj => ?_⟩
  · rcases Nat.eq_zero_or_pos j with rfl | hpos
    · exact p.C_pos
    · exact hl.marker_lt j (hold j hpos hj)
  · rcases (AxisSa.step_rValid_of_hold he d).mp hrv with hc | hrv
    · exact waveFrom_of_rCopy_busy ha ho hv hd hc
    · exact (hl.full_marker d hd hrv j hdj (hold j (by omega) hj)).next ha hv
  · have hk := hold k (by omega) hk
    have hcase : (j = 0 ∧ s.rCopy i 0 = true) ∨ s.rLast j = true := by
      rcases Nat.eq_zero_or_pos j with rfl | hpos
      · rcases hzero hj with hc | hj
        · exact Or.inl ⟨rfl, hc⟩
        · exact Or.inr hj
      · exact Or.inr (hold j hpos hj)
    rcases hcase with ⟨rfl, hc⟩ | hj
    · have hw := waveFrom_of_rCopy_busy ha ho hv p.D_pos hc
      exact ⟨hv', hw, Or.inr ⟨hw, fun d hd => absurd hd (Nat.not_lt_zero d)⟩⟩
    · obtain ⟨_, hw, hnear⟩ := hl.pair j k hjk hj hk
      refine ⟨hv', hw.next ha hv, hnear.imp id fun hfar => ⟨hfar.1.next ha hv, fun d hd => ?_⟩⟩
      by_contra hrv
      have hjC := hl.marker_lt j hj
      have hCD := p.C_le_D
      rcases (AxisSa.step_rValid_of_hold he d).mp (Bool.not_eq_false _ ▸ hrv) with hc | hrv
      · exact hone d (by omega) hc (hfar.1.mono (by omega))
      · rw [hfar.2 d hd] at hrv
        cases hrv
  · have hj := hold j (by omega) hj
    by_contra hk
    have hk := hold k (by omega) (Bool.not_eq_false _ ▸ hk)
    have hi : s.rLast i' = true := by
      rcases Nat.eq_zero_or_pos i' with rfl | hpos
      · rcases hzero hi' with hc | hi
        · exact absurd (hl.pair j k hjk hj hk).2.1 (hone 0 p.D_pos hc)
        · exact hi
      · exact hold i' hpos hi'
    rw [hl.triple i' j k hij hjk hi hj] at hk
    cases hk

/-! ### A cycle that hands over a beat -/

theorem AxisSa.step_rLast_zero (he : s.enShift i = true) (h0 : (s.step i).rLast 0 = true) :
    s.rCopy i 0 = true := by
  rw [rLast_zero, step_rValid_iff] at h0
  obtain ⟨_, hc | ⟨hrv, hnot⟩⟩ := h0
  · exact hc
  · exact absurd ⟨he, hrv⟩ hnot

theorem AxisSa.step_rLast_succ (he : s.enShift i = true) (j : ℕ) :
    (s.step i).rLast (j + 1) = true ↔
      ¬ (p.C - 1 ≤ j + 1 ∧ s.mLast = true) ∧ s.rLast j = true := by
  rw [rLast_of_pos (Nat.le_add_left 1 j), step_rLastReg_iff he, Nat.add_sub_cancel]

/-- The last beat of a packet frees the registers of the last column. -/
theorem Live.step_mValid_iff (hl : Live s) (he : s.enShift i = true) :
    (s.step i).mValid = true ↔ s.mLast = false := by
  have hv := (AxisSa.enShift_iff.mp he).1
  have hCD := p.C_le_D
  refine ⟨?_, ?_⟩
  · intro hv'
    by_contra hlast
    exact ((AxisSa.step_rValid_iff _).mp hv').1 ⟨by omega, he, Bool.not_eq_false _ ▸ hlast⟩
  · intro hlast
    refine (AxisSa.step_rValid_iff _).mpr ⟨by simp [hlast], Or.inr ⟨hv, fun hcl => ?_⟩⟩
    have hC := hl.marker_lt _ hcl.2
    have hm : p.D - 1 = p.C - 1 := by omega
    have hml : s.mLast = true := by rw [AxisSa.mLast, ← hm, hcl.2]
    rw [hlast] at hml
    cases hml

theorem Live.step_handover (hl : Live s) (ha : Aligned s h) (ho : OneWave s)
    (he : s.enShift i = true) : Live (s.step i) := by
  have hv := (AxisSa.enShift_iff.mp he).1
  have hCD := p.C_le_D
  have hlast : (s.step i).mValid = false → s.mLast = true := fun hv' => by
    by_contra hnot
    rw [(hl.step_mValid_iff he).mpr (Bool.not_eq_true _ ▸ hnot)] at hv'
    cases hv'
  have hcopied : ∀ d < p.D, s.rCopy i d = true → WaveFrom (s.step i) (d + 1) := fun d hd hc =>
    waveFrom_of_rCopy_busy ha ho hv hd hc
  have hone : ∀ d < p.D, s.rCopy i d = true → ¬ WaveFrom s (d + 1) := fun d hd hc =>
    ho.not_waveFrom hd (AxisSa.aValid_of_rCopy hc)
  have hmove : ∀ j, (s.step i).rLast (j + 1) = true → s.rLast j = true := fun j hj =>
    ((AxisSa.step_rLast_succ he j).mp hj).2
  -- a marker in front of the end marker goes no further than the column before the last
  have hroom : ∀ j, (s.step i).rLast (j + 1) = true → s.mLast = true → j + 1 < p.C - 1 :=
    fun j hj hm => Nat.lt_of_not_le fun hle => ((AxisSa.step_rLast_succ he j).mp hj).1 ⟨hle, hm⟩
  -- what is still full was not passed by a marker
  have hkept : ∀ d, (s.step i).rValid d = true → s.rCopy i d = true ∨
      (s.rValid d = true ∧ s.rLast d = false ∧ (s.mLast = true → d < p.C - 1)) := by
    intro d hrv
    obtain ⟨hlt, hc | ⟨hrv, hnot⟩⟩ := (AxisSa.step_rValid_iff d).mp hrv
    · exact Or.inl hc
    · refine Or.inr ⟨hrv, ?_, fun hm => Nat.lt_of_not_le fun hle => hlt ⟨hle, he, hm⟩⟩
      cases hrl : s.rLast d with
      | false => rfl
      | true => exact absurd ⟨he, hrl⟩ hnot
  -- behind a marker that is not next to the end marker only the wave fills registers
  have hfar : ∀ j k, j < k → j + 1 ≠ k → s.rLast j = true → s.rLast k = true →
      WaveFrom s (j + 1) ∧ ∀ d ≤ j, (s.step i).rValid d = false := by
    intro j k hjk hne hj hk
    obtain ⟨_, _, heq | ⟨hw, hempty⟩⟩ := hl.pair j k hjk hj hk
    · omega
    refine ⟨hw, fun d hd => by_contra fun hrv => ?_⟩
    have hjC := hl.marker_lt j hj
    rcases hkept d (Bool.not_eq_false _ ▸ hrv) with hc | ⟨hrv, hrl, _⟩
    · exact hone d (by omega) hc (hw.mono (by omega))
    · rcases Nat.eq_or_lt_of_le hd with rfl | hlt
      · rw [hj] at hrl
        cases hrl
      · rw [hempty d hlt] at hrv
        cases hrv
  refine ⟨fun j hj => ?_, fun hv' d hd hrv => ?_, fun d hd hrv j hdj hj => ?_,
    fun hv' d hd hrv j hj => ?_, fun hv' j hj => ?_, fun j k hjk hj hk => ?_,
    fun i' j k hij hjk hi' hj => ?_⟩
  · cases j with
    | zero => exact p.C_pos
    | succ j =>
      have hjC := hl.marker_lt j (hmove j hj)
      by_contra hge
      obtain rfl : j = p.C - 1 := by omega
      exact ((AxisSa.step_rLast_succ he _).mp hj).1 ⟨by omega, hmove _ hj⟩
  · have hm := hlast hv'
    rcases hkept d hrv with hc | ⟨hrv, _, hlt⟩
    · exact hcopied d hd hc
    · exact (hl.full_marker d hd hrv (p.C - 1) (hlt hm) hm).next ha hv
  · obtain ⟨j, rfl⟩ : ∃ j', j = j' + 1 := ⟨j - 1, by omega⟩
    rcases hkept d hrv with hc | ⟨hrv, hrl, _⟩
    · exact hcopied d hd hc
    · have hne : d ≠ j := by
        rintro rfl
        rw [hmove d hj] at hrl
        cases hrl
      exact (hl.full_marker d hd hrv j (by omega) (hmove j hj)).next ha hv
  · have hm := hlast hv'
    cases j with
    | zero => exact Nat.zero_le d
    | succ j =>
      have hjC := hroom j hj hm
      by_contra hdj
      have hempty := (hfar j (p.C - 1) (by omega) (by omega) (hmove j hj) hm).2 d (by omega)
      rw [hempty] at hrv
      cases hrv
  · have hm := hlast hv'
    cases j with
    | zero => exact (hcopied 0 p.D_pos (AxisSa.step_rLast_zero he hj)).mono (Nat.zero_le 1)
    | succ j =>
      have hjC := hroom j hj hm
      exact (hfar j (p.C - 1) (by omega) (by omega) (hmove j hj) hm).1.next ha hv
  · obtain ⟨k, rfl⟩ : ∃ k', k = k' + 1 := ⟨k - 1, by omega⟩
    have hk0 := hmove k hk
    -- the packet is not at its last beat, else the markers were three or the wave ahead
    have hv' : (s.step i).mValid = true := by
      by_contra hidle
      have hm := hlast (Bool.not_eq_true _ ▸ hidle)
      have hkC := hroom k hk hm
      cases j with
      | zero =>
        exact hone 0 p.D_pos (AxisSa.step_rLast_zero he hj)
          (hl.pair k (p.C - 1) (by omega) hk0 hm).2.1
      | succ j =>
        have hthird := hl.triple j k (p.C - 1) (by omega) (by omega) (hmove j hj) hk0
        exact absurd (hthird.symm.trans hm) Bool.false_ne_true
    cases j with
    | zero =>
      have hw := hcopied 0 p.D_pos (AxisSa.step_rLast_zero he hj)
      exact ⟨hv', hw, Or.inr ⟨hw, fun d hd => absurd hd (Nat.not_lt_zero d)⟩⟩
    | succ j =>
      have hj0 := hmove j hj
      obtain ⟨_, hw1, hnear⟩ := hl.pair j k (by omega) hj0 hk0
      refine ⟨hv', hw1.next ha hv, ?_⟩
      by_cases heq : j + 1 = k
      · exact Or.inl (by omega)
      · obtain ⟨⟨w, hjw, hwD, hav⟩, hempty⟩ := hfar j k (by omega) heq hj0 hk0
        refine Or.inr ⟨?_, fun d hd => hempty d (by omega)⟩
        rcases Nat.eq_or_lt_of_le hjw with rfl | hlt
        · cases hrv : s.rValid (j + 1) with
          | true =>
            -- the wave would also be further ahead
            exact absurd (hl.full_marker (j + 1) hwD hrv k (by omega) hk0)
              (ho.not_waveFrom hwD hav)
          | false =>
            refine hcopied (j + 1) hwD ?_
            simp [AxisSa.rCopy, AxisSa.canCopy, AxisSa.mStall, hav, hrv,
              (AxisSa.enShift_iff.mp he).2]
        · exact WaveFrom.next ⟨w, hlt, hwD, hav⟩ ha hv
  · obtain ⟨j, rfl⟩ : ∃ j', j = j' + 1 := ⟨j - 1, by omega⟩
    obtain ⟨k, rfl⟩ : ∃ k', k = k' + 1 := ⟨k - 1, by omega⟩
    by_contra hk
    have hj0 := hmove j hj
    have hk0 := hmove k (Bool.not_eq_false _ ▸ hk)
    cases i' with
    | zero =>
      exact hone 0 p.D_pos (AxisSa.step_rLast_zero he hi') (hl.pair j k (by omega) hj0 hk0).2.1
    | succ i' =>
      exact absurd ((hl.triple i' j k (by omega) (by omega) (hmove i' hi') hj0).symm.trans hk0)
        Bool.false_ne_true

theorem Live.step (hl : Live s) (ha : Aligned s h) (ho : OneWave s) : Live (s.step i) := by
  cases hv : s.mValid with
  | false => exact hl.step_idle ha ho hv
  | true =>
    cases he : s.enShift i with
    | false => exact hl.step_wait ha ho hv he
    | true => exact hl.step_handover ha ho he

end Step

/-! ### Runs -/

variable {u : ℕ → SaIn p} {t : ℕ}

theorem oneWave_run (hr : (axisSa p).Obeys SpacedOk u t) : OneWave ((axisSa p).state u t) :=
  (spaced_run hr).oneWave (aligned_run u t)

theorem live_run (hr : (axisSa p).Obeys SpacedOk u t) : Live ((axisSa p).state u t) := by
  induction t with
  | zero => exact live_reset
  | succ t ih =>
    have hr' := hr.mono (Nat.le_succ t)
    exact (ih hr').step (aligned_run u t) (oneWave_run hr')

/-- **The array takes a beat or offers one.** -/
theorem sReady_or_mValid (hr : (axisSa p).Obeys SpacedOk u t) :
    ((axisSa p).state u t).sReady (u t) = true ∨ ((axisSa p).state u t).mValid = true := by
  cases hv : ((axisSa p).state u t).mValid with
  | true => exact Or.inr rfl
  | false => exact Or.inl ((live_run hr).enMac_of_idle (oneWave_run hr) hv)

/-- Two packets of one beat, one after the other. -/
def shortPackets : ℕ → SaIn oneByTwo := AxisSa.script
  [cycle _ true true 1 true, cycle _ true true 2 true]

/-- The wave of the second packet meets the registers that the first has filled:
in cycle `3` the array takes no beat and offers none, although `m_ready` is high. -/
theorem shortPackets_deadlock : LegalSource oneByTwo shortPackets ∧
    ¬ ((((axisSa oneByTwo).state shortPackets 3).sReady (shortPackets 3)) = true ∨
      ((axisSa oneByTwo).state shortPackets 3).mValid = true) :=
  ⟨legalSource_script (by decide), by decide⟩

/-- With a cycle between them the packets pass. -/
def spacedPackets : ℕ → SaIn oneByTwo := AxisSa.script
  [cycle _ true true 1 true, cycle _ false false 0 true, cycle _ true true 2 true]

theorem spacedPackets_live :
    ((axisSa oneByTwo).state spacedPackets 4).sReady (spacedPackets 4) = true ∨
      ((axisSa oneByTwo).state spacedPackets 4).mValid = true :=
  sReady_or_mValid (by decide)

end AxisSystolic
