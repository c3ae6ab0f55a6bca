import AxisSystolic.Sa.Throughput
import AxisSystolic.Top.Top

/-!
# One job at a time

Firmware starts a job only after the result of the job before has arrived.  The
operand streams then offer the beats of a job only after the `C` result beats of
the job before (`Offers`), and the array works on one packet at a time
(`Offers.oneAtATime`): it never stalls, a result is on offer a fixed number of
cycles after the last operands of its job, and the `y` stream carries the
results of the jobs in order.
-/

namespace AxisSystolic

open Sync

variable {p : SaParams} {WA : ℕ}

/-! ### Jobs -/

/-- The operands of a job: `k[i]` and `x[i]` for each `i < K`, and `a`. -/
structure Job (p : SaParams) (WA : ℕ) where
  ops : List ((Fin p.C → BitVec p.WK) × (Fin p.R → BitVec p.WX))
  ops_ne : ops ≠ []
  a : Fin p.C → Fin p.R → BitVec WA

namespace Job

/-- The beats of the three streams, with `tlast` on the last operands. -/
def kBeats (j : Job p WA) : List ((Fin p.C → BitVec p.WK) × Bool) := mark (j.ops.map Prod.fst)
def xBeats (j : Job p WA) : List ((Fin p.R → BitVec p.WX) × Bool) := mark (j.ops.map Prod.snd)
def aBeats (j : Job p WA) : List (Fin p.R → BitVec WA) := List.ofFn j.a

/-- The result of a job: beat `c` holds in lane `r` the sum of `k[i][c] * x[i][r]`
and `a[c][r]`, wrapped to `WY` bits. -/
def result (j : Job p WA) : List (Fin p.R → BitVec p.WY) :=
  List.ofFn fun c r => BitVec.ofInt p.WY
    ((j.ops.map fun o => (o.1 c).toInt * (o.2 r).toInt).sum + (j.a c r).toInt)

/-- The beats that the array takes. -/
def beats (j : Job p WA) : List (Beat p) :=
  (mark j.ops).map fun o => ⟨true, o.2, o.1.2, o.1.1⟩

theorem isFrame_beats (j : Job p WA) : IsFrame Beat.sLast j.beats := by
  obtain ⟨init, b, hops, hb, hinit⟩ := isFrame_mark j.ops_ne
  refine ⟨init.map fun o => ⟨true, o.2, o.1.2, o.1.1⟩, ⟨true, b.2, b.1.2, b.1.1⟩, ?_, hb, ?_⟩
  · rw [beats, hops, List.map_append, List.map_singleton]
  · intro a ha
    obtain ⟨o, ho, rfl⟩ := List.mem_map.mp ha
    exact hinit o ho

theorem frames_beats (jobs : List (Job p WA)) :
    frames Beat.sLast (jobs.flatMap beats) = jobs.map beats :=
  frames_flatMap isFrame_beats jobs

theorem beats_flatMap (jobs : List (Job p WA)) : jobs.flatMap beats
    = (jobs.flatMap fun j => mark j.ops).map fun o => ⟨true, o.2, o.1.2, o.1.1⟩ := by
  rw [List.map_flatMap]
  rfl

theorem kBeats_flatMap (jobs : List (Job p WA)) : jobs.flatMap kBeats
    = (jobs.flatMap fun j => mark j.ops).map fun o => (o.1.1, o.2) := by
  rw [List.map_flatMap]
  exact congrArg (List.flatMap · jobs) (funext fun j => mark_map Prod.fst j.ops)

theorem xBeats_flatMap (jobs : List (Job p WA)) : jobs.flatMap xBeats
    = (jobs.flatMap fun j => mark j.ops).map fun o => (o.1.2, o.2) := by
  rw [List.map_flatMap]
  exact congrArg (List.flatMap · jobs) (funext fun j => mark_map Prod.snd j.ops)

theorem length_kBeats_flatMap (jobs : List (Job p WA)) :
    (jobs.flatMap kBeats).length = (jobs.flatMap beats).length := by
  rw [kBeats_flatMap, beats_flatMap, List.length_map, List.length_map]

/-- Beats of the two streams at one place are one beat of the array. -/
theorem beats_getElem? {jobs : List (Job p WA)} {q : ℕ} {k : Fin p.C → BitVec p.WK}
    {x : Fin p.R → BitVec p.WX} {kLast xLast : Bool}
    (hk : (jobs.flatMap kBeats)[q]? = some (k, kLast))
    (hx : (jobs.flatMap xBeats)[q]? = some (x, xLast)) :
    (jobs.flatMap beats)[q]? = some ⟨true, kLast && xLast, x, k⟩ := by
  rw [kBeats_flatMap, List.getElem?_map, Option.map_eq_some_iff] at hk
  rw [xBeats_flatMap, List.getElem?_map, Option.map_eq_some_iff] at hx
  obtain ⟨o, ho, hok⟩ := hk
  obtain ⟨o', ho', hox⟩ := hx
  rw [ho, Option.some.injEq] at ho'
  subst ho'
  rw [Prod.mk.injEq] at hok hox
  rw [beats_flatMap, List.getElem?_map, ho, Option.map_some, ← hok.1, ← hok.2, ← hox.1, ← hox.2,
    Bool.and_self]

theorem dot_beats (j : Job p WA) (c : Fin p.C) (r : Fin p.R) : dot j.beats c r
    = BitVec.ofInt p.WY (j.ops.map fun o => (o.1 c).toInt * (o.2 r).toInt).sum := by
  have hmul : j.ops.map (fun o => (o.1 c).toInt * (o.2 r).toInt)
      = (mark j.ops).map fun o => (o.1.2 r).toInt * (o.1.1 c).toInt := by
    conv_lhs => rw [← map_fst_mark j.ops, List.map_map]
    exact List.map_congr_left fun o _ => Int.mul_comm _ _
  rw [dot, beats, List.map_map, hmul]
  rfl

end Job

/-! ### The streams of a run -/

/-- How many results have been handed over when cycle `t` ends. -/
def jobsDone (p : SaParams) (WA : ℕ) (u : ℕ → TopIn p WA) (t : ℕ) : ℕ :=
  (yBeats p WA u (t + 1)).length / p.C

/-- In cycle `t` a stream that is valid offers its next beat.  The operand
streams offer no beat of a job before the results of all jobs before it have
been handed over. -/
def OffersAt (jobs : List (Job p WA)) (u : ℕ → TopIn p WA) (t : ℕ) : Prop :=
  ((u t).sKTvalid = true →
    ((jobs.take (jobsDone p WA u t + 1)).flatMap Job.kBeats)[(kBeats p WA u t).length]?
      = some ((u t).sKTdata, (u t).sKTlast)) ∧
  ((u t).sXTvalid = true →
    ((jobs.take (jobsDone p WA u t + 1)).flatMap Job.xBeats)[(xBeats p WA u t).length]?
      = some ((u t).sXTdata, (u t).sXTlast)) ∧
  ((u t).sATvalid = true →
    (jobs.flatMap Job.aBeats)[(aBeats p WA u t).length]? = some (u t).sATdata)

instance (jobs : List (Job p WA)) (u : ℕ → TopIn p WA) (t : ℕ) : Decidable (OffersAt jobs u t) :=
  inferInstanceAs (Decidable ((_ → _) ∧ (_ → _) ∧ (_ → _)))

/-- The streams carry the jobs. -/
def Offers (jobs : List (Job p WA)) (u : ℕ → TopIn p WA) : Prop := ∀ t, OffersAt jobs u t

/-- The last operands of job `j` are taken in cycle `T`. -/
def JobTaken (jobs : List (Job p WA)) (u : ℕ → TopIn p WA) (j T : ℕ) : Prop :=
  j < jobs.length ∧ (Top.kTaken ((top p WA).state u T) (u T)).isSome = true ∧
    (kBeats p WA u (T + 1)).length = ((jobs.take (j + 1)).flatMap Job.kBeats).length

section Run

variable {jobs : List (Job p WA)} {u : ℕ → TopIn p WA} {t : ℕ}

theorem take_flatMap_mono {α : Type*} (f : Job p WA → List α) {m n : ℕ} (h : m ≤ n) :
    (jobs.take m).flatMap f <+: (jobs.take n).flatMap f :=
  ((List.take_prefix_take_left h).flatMap f)

theorem jobsDone_eq (t : ℕ) : jobsDone p WA u t = packetNow p (saRun p WA u) (t + 1) := by
  rw [jobsDone, length_yBeats, packetNow]

theorem packetNow_mono (u : ℕ → SaIn p) {t t' : ℕ} (h : t ≤ t') :
    packetNow p u t ≤ packetNow p u t' :=
  Nat.div_le_div_right ((axisSa p).events_mono AxisSa.mBeat h).length_le

namespace Offers

/-- The array takes the beats of the jobs in order, and none too early. -/
theorem inBeats_mono (ho : Offers jobs u) (t : ℕ) : inBeats p (saRun p WA u) t
    <+: (jobs.take (packetNow p (saRun p WA u) t + 1)).flatMap Job.beats := by
  induction t with
  | zero => exact List.nil_prefix
  | succ t ih =>
    have hle := packetNow_mono (saRun p WA u) (Nat.le_succ t)
    have hold := ih.trans (take_flatMap_mono Job.beats (Nat.succ_le_succ hle))
    cases hb : ((axisSa p).state (saRun p WA u) t).sBeat (saRun p WA u t) with
    | none =>
      rw [inBeats, Machine.events_succ_none hb]
      exact hold
    | some b =>
      obtain ⟨hk, hx, rfl⟩ := Top.taken_of_sBeat hb
      rw [inBeats, Machine.events_succ_some hb]
      refine prefix_snoc hold ?_
      have hv : (u t).sKTvalid = true ∧ (u t).sXTvalid = true := by
        refine ⟨?_, ?_⟩
        · by_contra hne
          simp [Top.kTaken, hne] at hk
        · by_contra hne
          simp [Top.xTaken, hne] at hx
      have hok := (ho t).1 hv.1
      have hox := (ho t).2.1 hv.2
      rw [jobsDone_eq, length_kBeats] at hok
      rw [jobsDone_eq, length_xBeats, length_kBeats] at hox
      exact Job.beats_getElem? hok hox

theorem frames_mono_now (ho : Offers jobs u) (t : ℕ) :
    frames Beat.sLast (inBeats p (saRun p WA u) t)
      <+: (jobs.take (packetNow p (saRun p WA u) t + 1)).map Job.beats := by
  rw [← Job.frames_beats]
  exact frames_mono Beat.sLast (ho.inBeats_mono t)

/-- The packets taken are those of the first jobs. -/
theorem frames_eq (ho : Offers jobs u) (t : ℕ) : frames Beat.sLast (inBeats p (saRun p WA u) t)
    = (jobs.take (packetsTaken p (saRun p WA u) t)).map Job.beats := by
  have h := (ho.frames_mono_now t).trans ((List.take_prefix _ jobs).map Job.beats)
  rw [List.prefix_iff_eq_take.mp h, List.map_take, packetsTaken]

theorem oneAtATime (ho : Offers jobs u) : OneAtATime p (saRun p WA u) := by
  intro t
  have h := (ho.frames_mono_now t).length_le
  rw [List.length_map, List.length_take] at h
  rw [packetsTaken]
  omega

theorem inBeats_mono_all (ho : Offers jobs u) (t : ℕ) :
    inBeats p (saRun p WA u) t <+: jobs.flatMap Job.beats :=
  (ho.inBeats_mono t).trans ((List.take_prefix _ jobs).flatMap Job.beats)

/-- The array has taken exactly the beats of the first `m` jobs if and only if
it has taken `m` packets and is not inside the next. -/
theorem inBeats_eq_iff (ho : Offers jobs u) {m : ℕ} (hm : m ≤ jobs.length) :
    inBeats p (saRun p WA u) t = (jobs.take m).flatMap Job.beats ↔
      packetsTaken p (saRun p WA u) t = m ∧ rest Beat.sLast (inBeats p (saRun p WA u) t) = [] := by
  have hall := flatten_frames Beat.sLast (inBeats p (saRun p WA u) t)
  refine ⟨?_, ?_⟩
  · intro hin
    have hfr : frames Beat.sLast (inBeats p (saRun p WA u) t) = (jobs.take m).map Job.beats := by
      rw [hin, Job.frames_beats]
    refine ⟨?_, ?_⟩
    · rw [packetsTaken, hfr, List.length_map, List.length_take, Nat.min_eq_left hm]
    · rw [hfr, ← List.flatMap_def, ← hin] at hall
      exact List.append_right_eq_self.mp hall
  · rintro ⟨rfl, hrest⟩
    rw [ho.frames_eq, hrest, List.append_nil, ← List.flatMap_def] at hall
    exact hall.symm

theorem packetsTaken_le (ho : Offers jobs u) (t : ℕ) :
    packetsTaken p (saRun p WA u) t ≤ jobs.length := by
  have h := congrArg List.length (ho.frames_eq t)
  rw [List.length_map, List.length_take, ← packetsTaken] at h
  omega

/-- The last operands of job `j` are the end of packet `j`. -/
theorem jobTaken_iff (ho : Offers jobs u) {j T : ℕ} : JobTaken jobs u j T ↔
    LastTaken p (saRun p WA u) T ∧ packetsTaken p (saRun p WA u) T = j := by
  have hmem : ∀ m, (inBeats p (saRun p WA u) (T + 1)).length
      = ((jobs.take m).flatMap Job.beats).length ↔
      inBeats p (saRun p WA u) (T + 1) = (jobs.take m).flatMap Job.beats := by
    intro m
    refine ⟨?_, ?_⟩
    · intro hlen
      exact (List.prefix_of_prefix_length_le (ho.inBeats_mono_all _)
        ((List.take_prefix m jobs).flatMap Job.beats) hlen.le).eq_of_length hlen
    · exact congrArg List.length
  rw [JobTaken, top_state, length_kBeats, Job.length_kBeats_flatMap, hmem, ← Top.sBeat_isSome]
  cases hb : ((axisSa p).state (saRun p WA u) T).sBeat (saRun p WA u T) with
  | none =>
    refine ⟨?_, ?_⟩
    · rintro ⟨_, hsome, _⟩
      rw [saRun] at hb
      rw [hb] at hsome
      cases hsome
    · rintro ⟨⟨hr, hv, _⟩, _⟩
      rw [AxisSa.sBeat, if_pos (by rw [hr, hv]; rfl)] at hb
      cases hb
  | some b =>
    have hsucc : inBeats p (saRun p WA u) (T + 1) = inBeats p (saRun p WA u) T ++ [b] :=
      Machine.events_succ_some hb
    have hlast : LastTaken p (saRun p WA u) T ↔ b.sLast = true := by
      rw [AxisSa.sBeat] at hb
      by_cases h : (((axisSa p).state (saRun p WA u) T).sReady (saRun p WA u T)
          && (saRun p WA u T).sValid) = true
      · rw [if_pos h, Option.some.injEq] at hb
        rw [Bool.and_eq_true] at h
        rw [← hb, LastTaken, h.1, h.2]
        simp
      · rw [if_neg h] at hb
        cases hb
    have hrest := rest_snoc Beat.sLast (inBeats p (saRun p WA u) T) b
    have hframes := congrArg List.length (frames_snoc Beat.sLast (inBeats p (saRun p WA u) T) b)
    rw [← hsucc] at hrest hframes
    rw [List.length_append] at hframes
    rw [hlast]
    refine ⟨?_, ?_⟩
    · rintro ⟨hj, _, hin⟩
      obtain ⟨hm, hnil⟩ := (ho.inBeats_eq_iff hj).mp hin
      cases hbl : b.sLast with
      | false =>
        rw [hnil, hbl, if_neg Bool.false_ne_true] at hrest
        simp at hrest
      | true =>
        rw [hbl, if_pos rfl, List.length_singleton] at hframes
        refine ⟨rfl, ?_⟩
        rw [packetsTaken] at hm ⊢
        omega
    · rintro ⟨hbl, hm⟩
      rw [hbl, if_pos rfl, List.length_singleton] at hframes
      rw [hbl, if_pos rfl] at hrest
      have hle := ho.packetsTaken_le (T + 1)
      have hm' : packetsTaken p (saRun p WA u) (T + 1) = j + 1 := by
        rw [packetsTaken] at hm ⊢
        omega
      refine ⟨by omega, ?_, (ho.inBeats_eq_iff (by omega)).mpr ⟨hm', hrest⟩⟩
      rw [saRun] at hb
      rw [hb]
      rfl

/-- The data of a `y` beat belong to its job. -/
theorem mYTdata_eq (ho : Offers jobs u) (hW : p.WY ≤ WA)
    (he : ((axisSa p).state (saRun p WA u) t).enShift (saRun p WA u t) = true) :
    (jobs.flatMap Job.result)[(yBeats p WA u t).length]?
      = some (Top.mYTdata ((axisSa p).state (saRun p WA u) t) (u t)) := by
  have hone := ho.oneAtATime
  have hk := beatNow_lt (p := p) (u := saRun p WA u) t
  obtain ⟨hv, hr⟩ := AxisSa.enShift_iff.mp he
  have ha : (u t).sATvalid = true := by
    have hr' : (u t).mYTready = true ∧ (u t).sATvalid = true := by
      simpa [saRun, Top.saIn, Top.mReady] using hr
    exact hr'.2
  obtain ⟨pkt, hpkt, hdata⟩ := mData_eq_dot (hone.shifting t) (results_run (hone.obeys t)) hv
  have hjob := getElem?_mono ((ho.frames_mono_now t).trans
    ((List.take_prefix _ jobs).map Job.beats)) hpkt
  rw [List.getElem?_map, Option.map_eq_some_iff] at hjob
  obtain ⟨j, hj, rfl⟩ := hjob
  have hoa := (ho t).2.2 ha
  rw [length_aBeats, length_yBeats, ← packetNow_mul_add,
    getElem?_flatMap_block (fun j => by rw [Job.aBeats, List.length_ofFn]) _ _ hk, hj,
    Option.bind_some, Job.aBeats, List.getElem?_ofFn, dif_pos hk, Option.some.injEq] at hoa
  rw [length_yBeats, ← packetNow_mul_add,
    getElem?_flatMap_block (fun j => by rw [Job.result, List.length_ofFn]) _ _ hk, hj,
    Option.bind_some, Job.result, List.getElem?_ofFn, dif_pos hk, Option.some.injEq]
  funext r
  rw [Top.mYTdata, hdata, Job.dot_beats, Top.aDataTemp, ← hoa,
    ← BitVec.signExtend_eq_setWidth_of_le _ hW, BitVec.signExtend, BitVec.ofInt_add]

theorem yBeats_mono (ho : Offers jobs u) (hW : p.WY ≤ WA) (t : ℕ) :
    (yBeats p WA u t).map Prod.fst <+: jobs.flatMap Job.result := by
  induction t with
  | zero => exact List.nil_prefix
  | succ t ih =>
    cases he : ((axisSa p).state (saRun p WA u) t).enShift (saRun p WA u t) with
    | false => rwa [yBeats_succ_of_hold he]
    | true =>
      rw [yBeats_succ_of_shift he, List.map_append, List.map_singleton]
      refine prefix_snoc ih ?_
      rw [List.length_map]
      exact ho.mYTdata_eq hW he

end Offers

/-- **One job at a time.** -/
theorem oneJobAtATime (hW : p.WY ≤ WA) (ho : Offers jobs u) (t : ℕ) :
    Top.sReady ((top p WA).state u t) (u t) = true ∧
    (∀ j T, JobTaken jobs u j T → T + p.LM + p.LA + p.R + p.C - 1 ≤ t →
      (yBeats p WA u t).length < p.C * (j + 1) → ((top p WA).state u t).mValid = true) ∧
    (((top p WA).state u t).mValid = true → ∃ j T, JobTaken jobs u j T ∧
      T + p.LM + p.LA + p.R + p.C - 1 ≤ t ∧
      p.C * j ≤ (yBeats p WA u t).length ∧ (yBeats p WA u t).length < p.C * (j + 1)) ∧
    (yBeats p WA u t).map Prod.fst <+: jobs.flatMap Job.result ∧
    (Top.kTaken ((top p WA).state u t) (u t)).isSome
      = (Top.xTaken ((top p WA).state u t) (u t)).isSome ∧
    (Top.aTaken ((top p WA).state u t) (u t)).isSome
      = (Top.yTaken ((top p WA).state u t) (u t)).isSome := by
  have hone := ho.oneAtATime
  have hnow := packetNow_mul_add (p := p) (u := saRun p WA u) t
  have hk := beatNow_lt (p := p) (u := saRun p WA u) t
  refine ⟨?_, ?_, ?_, ho.yBeats_mono hW t, Top.kTaken_isSome _ _, Top.aTaken_isSome _ _⟩
  · rw [top_state]
    exact hone.moving t
  · intro j T hT hle hlt
    obtain ⟨hlast, hj⟩ := ho.jobTaken_iff.mp hT
    have hTt : T + 1 ≤ t := by
      have := p.LM_pos
      have := p.C_pos
      omega
    rw [top_state, hone.mValid_iff]
    have htaken : packetsTaken p (saRun p WA u) (T + 1) = j + 1 := by
      rw [← length_packetEnds, hlast.packetEnds_succ, List.length_append, length_packetEnds, hj,
        List.length_singleton]
    have h1 := hone (T + 1)
    have h2 := packetNow_mono (saRun p WA u) hTt
    have h3 : packetNow p (saRun p WA u) t < j + 1 := by
      rw [length_yBeats, ← hnow] at hlt
      exact Nat.lt_of_mul_lt_mul_left (Nat.lt_of_le_of_lt (Nat.le_add_right _ _) hlt)
    exact ⟨T, hlast, by omega, hle⟩
  · intro hv
    rw [top_state, hone.mValid_iff] at hv
    obtain ⟨T, hlast, hm, hle⟩ := hv
    refine ⟨packetNow p (saRun p WA u) t, T, ho.jobTaken_iff.mpr ⟨hlast, hm⟩, hle, ?_, ?_⟩
    · rw [length_yBeats, ← hnow]
      exact Nat.le_add_right _ _
    · rw [length_yBeats, ← hnow, Nat.mul_succ]
      omega

end Run

namespace Top

/-- Sources that offer the inputs of a list, one in each cycle, and then nothing. -/
def script (l : List (TopIn p WA)) : ℕ → TopIn p WA := fun t =>
  l.getD t ⟨false, false, fun _ => 0, false, false, fun _ => 0, false, fun _ => 0, false⟩

/-- A cycle of a script for one row: the streams that are valid, `tlast` of the
operands, `x`, `a` and `m_y_tready`. -/
def cycle (p : SaParams) (WA : ℕ) (k x last : Bool) (xData : ℕ) (a : Bool) (aData : ℕ)
    (yReady : Bool) : TopIn p WA :=
  ⟨k, last, fun _ => 1, x, last, fun _ => BitVec.ofNat _ xData, a, fun _ => BitVec.ofNat _ aData,
    yReady⟩

end Top

theorem offers_script {jobs : List (Job p WA)} {l : List (TopIn p WA)}
    (h : ∀ t < l.length, OffersAt jobs (Top.script l) t) : Offers jobs (Top.script l) := by
  intro t
  rcases Nat.lt_or_ge t l.length with ht | ht
  · exact h t ht
  · have hidle : Top.script l t = ⟨false, false, fun _ => 0, false, false, fun _ => 0, false,
        fun _ => 0, false⟩ := by
      rw [Top.script, List.getD_eq_getElem?_getD, List.getElem?_eq_none ht]
      rfl
    rw [OffersAt, hidle]
    simp

/-- Two jobs, of one and of two beats. -/
def twoJobs : List (Job oneByTwo 9) :=
  [⟨[(fun _ => 1, fun _ => 3)], by decide, fun c _ => BitVec.ofNat _ c⟩,
   ⟨[(fun _ => 1, fun _ => 2), (fun _ => 1, fun _ => 5)], by decide, fun _ _ => 7⟩]

/-- Their streams, with gaps in all four; the second job starts in the cycle in
which the first ends. -/
def twoJobsSource : ℕ → TopIn oneByTwo 9 := Top.script
  [Top.cycle _ _ true false true 0 false 0 true, Top.cycle _ _ true true true 3 false 0 true,
   Top.cycle _ _ false false true 0 true 0 true, Top.cycle _ _ false false true 0 true 0 true,
   Top.cycle _ _ false false true 0 true 0 true, Top.cycle _ _ false false true 0 true 0 true,
   Top.cycle _ _ false false true 0 true 1 false, Top.cycle _ _ true true false 2 true 1 true,
   Top.cycle _ _ true true true 5 false 0 true, Top.cycle _ _ false false true 0 false 0 true,
   Top.cycle _ _ false false true 0 false 0 true, Top.cycle _ _ false false true 0 false 0 true,
   Top.cycle _ _ false false true 0 true 7 true, Top.cycle _ _ false false true 0 true 7 true]

theorem twoJobsSource_results : (yBeats _ _ twoJobsSource 14).length = 4 ∧
    (yBeats _ _ twoJobsSource 14).map Prod.fst <+: twoJobs.flatMap Job.result :=
  ⟨by decide, (oneJobAtATime (by decide) (offers_script (by decide)) 14).2.2.2.1⟩

end AxisSystolic
