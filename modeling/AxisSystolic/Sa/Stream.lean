import AxisSystolic.Sa.Deliver
import AxisSystolic.Sync.Blocks
import Mathlib.Data.List.Infix

/-!
# The array as a stream component

The array takes packets of any length on its `s` side and hands over `C` beats
for each on its `m` side.  It hands over the right data in the right order
(`outBeats_prefix_matmul`) and marks every `C`-th beat (`outBeats_mLast_iff`) in
the runs whose steps obey the rules.  Stalls that break a rule break the result
(`stalledSource`, `overtakenSource`).
-/

namespace AxisSystolic

open Sync

variable {p : SaParams} {u : ℕ → SaIn p} {t : ℕ}

/-- An AXI-Stream source holds what it offers until it is taken. -/
def LegalSource (p : SaParams) (u : ℕ → SaIn p) : Prop :=
  ∀ t, (u t).sValid = true → ((axisSa p).state u t).sReady (u t) = false →
    (u (t + 1)).toBeat = (u t).toBeat

/-- A script is legal if it is as long as it lasts. -/
theorem legalSource_script {l : List (SaIn p)}
    (hl : ∀ t < l.length, (AxisSa.script l t).sValid = true →
      ((axisSa p).state (AxisSa.script l) t).sReady (AxisSa.script l t) = false →
      (AxisSa.script l (t + 1)).toBeat = (AxisSa.script l t).toBeat) :
    LegalSource p (AxisSa.script l) := by
  intro t hv hr
  rcases Nat.lt_or_ge t l.length with ht | ht
  · exact hl t ht hv hr
  · rw [AxisSa.script, List.getD_eq_getElem?_getD, List.getElem?_eq_none ht] at hv
    cases hv

/-- The results due for the packets taken before cycle `t`. -/
def expected (p : SaParams) (u : ℕ → SaIn p) (t : ℕ) : List (Fin p.R → BitVec p.WY) :=
  (frames Beat.sLast (inBeats p u t)).flatMap matmul

theorem expected_mono {t' : ℕ} (h : t ≤ t') : expected p u t <+: expected p u t' :=
  (frames_mono Beat.sLast ((axisSa p).events_mono AxisSa.sBeat h)).flatMap matmul

/-! ### The beat on offer -/

/-- The packet whose beat is on offer, and the data of that beat. -/
theorem mData_eq_dot
    (hs : Shifting ((axisSa p).state u t) (history p u t) (packetNow p u t) (beatNow p u t))
    (hres : Results ((axisSa p).state u t) (history p u t) (packetNow p u t) (beatNow p u t))
    (hv : ((axisSa p).state u t).mValid = true) :
    ∃ pkt, (frames Beat.sLast (inBeats p u t))[packetNow p u t]? = some pkt ∧
      ((axisSa p).state u t).mData = dot pkt ⟨beatNow p u t, beatNow_lt t⟩ := by
  obtain ⟨e, he, _⟩ := hs.mValid_iff.mp hv
  refine ⟨_, by rw [frames_inBeats, List.getElem?_map, he]; rfl, funext fun r => ?_⟩
  rw [hres.mData_eq hs hv r, resultAt, List.getD_eq_getElem?_getD, he, Option.getD_some]
  exact accum_eq_dot e ⟨beatNow p u t, beatNow_lt t⟩ r

theorem expected_getElem? {pkt : List (Beat p)}
    (hpkt : (frames Beat.sLast (inBeats p u t))[packetNow p u t]? = some pkt) :
    (expected p u t)[(outBeats p u t).length]?
      = some (dot pkt ⟨beatNow p u t, beatNow_lt t⟩) := by
  rw [← packetNow_mul_add, expected, getElem?_flatMap_block length_matmul _ _ (beatNow_lt t), hpkt,
    Option.bind_some, matmul, List.getElem?_ofFn, dif_pos (beatNow_lt t)]

/-! ### Data -/

/-- **The data handed over are a prefix of the results of the packets taken.** -/
theorem outBeats_prefix_matmul (hr : (axisSa p).Obeys SaRule u t) :
    (outBeats p u t).map AxisSa.OutBeat.mData <+: expected p u t := by
  induction t with
  | zero => exact List.nil_prefix
  | succ t ih =>
    have hr' := hr.mono (Nat.le_succ t)
    have hold := (ih hr').trans (expected_mono (Nat.le_succ t))
    cases he : ((axisSa p).state u t).enShift (u t) with
    | false => rwa [outBeats_succ_of_hold he]
    | true =>
      obtain ⟨pkt, hpkt, hdata⟩ := mData_eq_dot (shifting_run (hr'.imp fun _ _ h => h.2))
        (results_run hr') (AxisSa.enShift_iff.mp he).1
      rw [outBeats_succ_of_shift he, List.map_append]
      refine prefix_snoc hold (getElem?_mono (expected_mono (Nat.le_succ t)) ?_)
      rw [List.length_map, expected_getElem? hpkt, ← hdata]

/-- A single element, fed three packets of two beats. -/
def oneByOne : SaParams := ⟨1, 1, 7, 2, 8, 1, 1, by decide, by decide, by decide, by decide⟩

/-- A cycle of a script for one row: every column of `k` is `1`. -/
def cycle (p : SaParams) (sValid sLast : Bool) (x : ℕ) (mReady : Bool) : SaIn p :=
  ⟨⟨sValid, sLast, fun _ => BitVec.ofNat _ x, fun _ => 1⟩, mReady⟩

/-- The third packet meets a stall with its first beat at the accumulator. -/
def stalledSource : ℕ → SaIn oneByOne := AxisSa.script
  [cycle _ true false 1 false, cycle _ true true 2 false, cycle _ true false 4 false,
   cycle _ true true 8 false, cycle _ true false 16 false, cycle _ true true 32 true,
   cycle _ true true 32 false, cycle _ false false 0 true, cycle _ false false 0 false,
   cycle _ false false 0 true]

/-- `m_first` falls during the stall, so the third result is `12 + 48` where `48`
is due. -/
theorem stalledSource_not_prefix : LegalSource oneByOne stalledSource ∧
    ¬ ((outBeats oneByOne stalledSource 10).map AxisSa.OutBeat.mData
      <+: expected oneByOne stalledSource 10) :=
  ⟨legalSource_script (by decide), by decide⟩

/-- Without the second stall the same packets come out right. -/
def smoothSource : ℕ → SaIn oneByOne := AxisSa.script
  [cycle _ true false 1 true, cycle _ true true 2 true, cycle _ true false 4 true,
   cycle _ true true 8 false, cycle _ true false 16 true, cycle _ true true 32 true,
   cycle _ false false 0 true, cycle _ false false 0 true, cycle _ false false 0 true]

theorem smoothSource_prefix : (outBeats oneByOne smoothSource 9).length = 3 ∧
    (outBeats oneByOne smoothSource 9).map AxisSa.OutBeat.mData
      <+: expected oneByOne smoothSource 9 :=
  ⟨by decide, outBeats_prefix_matmul (by decide)⟩

/-! ### Framing -/

/-- **Every `C`-th beat handed over carries `m_last`, and no other.** -/
theorem outBeats_mLast_iff (hr : (axisSa p).Obeys ShiftRule u t) :
    MarksEvery p.C ((outBeats p u t).map AxisSa.OutBeat.mLast) := by
  induction t with
  | zero => exact marksEvery_nil p.C
  | succ t ih =>
    have hr' := hr.mono (Nat.le_succ t)
    cases he : ((axisSa p).state u t).enShift (u t) with
    | false => rw [outBeats_succ_of_hold he]; exact ih hr'
    | true =>
      rw [outBeats_succ_of_shift he, List.map_append, List.map_singleton, marksEvery_snoc]
      refine ⟨ih hr', ?_⟩
      have hk := beatNow_lt (p := p) (u := u) t
      rw [(shifting_run hr').mLast_iff (AxisSa.enShift_iff.mp he).1, List.length_map,
        ← packetNow_mul_add, Nat.add_assoc, Nat.dvd_add_right (Nat.dvd_mul_right _ _)]
      refine ⟨?_, ?_⟩
      · intro hC
        rw [hC]
      · intro hdvd
        have := Nat.le_of_dvd (Nat.succ_pos _) hdvd
        omega

/-- One row and two columns. -/
def oneByTwo : SaParams := ⟨1, 2, 5, 2, 8, 1, 1, by decide, by decide, by decide, by decide⟩

/-- The second packet is captured on the first diagonal before the first packet
is finished. -/
def overtakenSource : ℕ → SaIn oneByTwo := AxisSa.script
  [cycle _ true false 1 false, cycle _ true true 2 false, cycle _ true false 4 false,
   cycle _ true true 8 false, cycle _ false false 0 false, cycle _ false false 0 true,
   cycle _ false false 0 false, cycle _ false false 0 true, cycle _ false false 0 false,
   cycle _ false false 0 true, cycle _ false false 0 true]

/-- The fourth beat handed over is the second of its packet, without `m_last`. -/
theorem overtakenSource_not_framed : LegalSource oneByTwo overtakenSource ∧
    ¬ MarksEvery 2 ((outBeats oneByTwo overtakenSource 11).map AxisSa.OutBeat.mLast) :=
  ⟨legalSource_script (by decide), by decide⟩

/-- With the second packet late enough both packets are framed. -/
def patientSource : ℕ → SaIn oneByTwo := AxisSa.script
  [cycle _ true false 1 true, cycle _ true true 2 true, cycle _ true false 4 true,
   cycle _ false false 0 true, cycle _ true true 8 true, cycle _ false false 0 true,
   cycle _ false false 0 true, cycle _ false false 0 true, cycle _ false false 0 true,
   cycle _ false false 0 true]

theorem patientSource_mLast_iff : (outBeats oneByTwo patientSource 10).length = 4 ∧
    MarksEvery 2 ((outBeats oneByTwo patientSource 10).map AxisSa.OutBeat.mLast) :=
  ⟨by decide, outBeats_mLast_iff (by decide)⟩

end AxisSystolic
