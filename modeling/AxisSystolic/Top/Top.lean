import AxisSystolic.Sa.Stream

/-!
# The datapath of the accelerator (`top_axi.v`, `top_axi_int.v`)

Module `top` joins the streams `s_k` and `s_x` in front of the array and joins
the array's output with the stream `s_a` behind it, where an adder of `R` lanes
forms `m_y`.  There is no register outside the array.
-/

namespace AxisSystolic

open Sync

/-- The inputs of a cycle. -/
structure TopIn (p : SaParams) (WA : ℕ) where
  sKTvalid : Bool
  sKTlast : Bool
  sKTdata : Fin p.C → BitVec p.WK
  sXTvalid : Bool
  sXTlast : Bool
  sXTdata : Fin p.R → BitVec p.WX
  sATvalid : Bool
  sATdata : Fin p.R → BitVec WA
  mYTready : Bool

namespace Top

variable {p : SaParams} {WA : ℕ} (s : AxisSa p) (i : TopIn p WA)

/-! ### Wires -/

def sValid : Bool := i.sKTvalid && i.sXTvalid

def sLast : Bool := i.sKTlast && i.sXTlast

def mReady : Bool := i.mYTready && i.sATvalid

/-- The ports of the instance `SA`. -/
def saIn : SaIn p := ⟨⟨sValid i, sLast i, i.sXTdata, i.sKTdata⟩, mReady i⟩

def sReady : Bool := s.sReady (saIn i)

def sKTready : Bool := sReady s i && i.sXTvalid

def sXTready : Bool := sReady s i && i.sKTvalid

def mYTvalid : Bool := i.sATvalid && s.mValid

def mYTlast : Bool := sLast i && s.mLast

def sATready : Bool := i.mYTready && s.mValid

/-- Each lane of `s_a_tdata` is fitted into `WY` bits. -/
def aDataTemp (r : Fin p.R) : BitVec p.WY := (i.sATdata r).setWidth p.WY

def mYTdata (r : Fin p.R) : BitVec p.WY := s.mData r + aDataTemp i r

/-! ### Handshakes -/

def kTaken : Option ((Fin p.C → BitVec p.WK) × Bool) :=
  if i.sKTvalid && sKTready s i then some (i.sKTdata, i.sKTlast) else none

def xTaken : Option ((Fin p.R → BitVec p.WX) × Bool) :=
  if i.sXTvalid && sXTready s i then some (i.sXTdata, i.sXTlast) else none

def aTaken : Option (Fin p.R → BitVec WA) :=
  if i.sATvalid && sATready s i then some i.sATdata else none

def yTaken : Option ((Fin p.R → BitVec p.WY) × Bool) :=
  if mYTvalid s i && i.mYTready then some (mYTdata s i, mYTlast s i) else none

/-- A `k` beat is taken exactly when an `x` beat is. -/
theorem kTaken_isSome : (kTaken s i).isSome = (xTaken s i).isSome := by
  cases hk : i.sKTvalid <;> cases hx : i.sXTvalid <;> cases hr : sReady s i <;>
    simp [kTaken, xTaken, sKTready, sXTready, hk, hx, hr]

/-- An `a` beat is taken exactly when a `y` beat is handed over. -/
theorem aTaken_isSome : (aTaken s i).isSome = (yTaken s i).isSome := by
  cases ha : i.sATvalid <;> cases hy : i.mYTready <;> cases hv : s.mValid <;>
    simp [aTaken, yTaken, sATready, mYTvalid, ha, hy, hv]

theorem yTaken_isSome : (yTaken s i).isSome = (s.mBeat (saIn i)).isSome := by
  have hr : (saIn i).mReady = (i.mYTready && i.sATvalid) := rfl
  cases ha : i.sATvalid <;> cases hy : i.mYTready <;> cases hv : s.mValid <;>
    simp [yTaken, mYTvalid, AxisSa.mBeat, hr, ha, hy, hv]

theorem yTaken_of_shift {s : AxisSa p} {i : TopIn p WA} (he : s.enShift (saIn i) = true) :
    yTaken s i = some (mYTdata s i, mYTlast s i) := by
  obtain ⟨hv, hr⟩ := AxisSa.enShift_iff.mp he
  have hr' : i.mYTready = true ∧ i.sATvalid = true := by simpa [saIn, mReady] using hr
  rw [yTaken, if_pos]
  simp [mYTvalid, hr'.1, hr'.2, hv]

theorem yTaken_of_hold {s : AxisSa p} {i : TopIn p WA} (he : s.enShift (saIn i) = false) :
    yTaken s i = none := by
  rw [yTaken, if_neg]
  intro hy
  have hy' : (i.sATvalid = true ∧ s.mValid = true) ∧ i.mYTready = true := by
    simpa [mYTvalid] using hy
  rw [AxisSa.enShift_iff.mpr ⟨hy'.1.2, by simp [saIn, mReady, hy'.1.1, hy'.2]⟩] at he
  cases he

/-- Both operands are taken when the array takes a beat. -/
theorem taken_of_sBeat {s : AxisSa p} {i : TopIn p WA} {b : Beat p} (hb : s.sBeat (saIn i) = some b) :
    kTaken s i = some (i.sKTdata, i.sKTlast) ∧ xTaken s i = some (i.sXTdata, i.sXTlast) ∧
      b = ⟨true, i.sKTlast && i.sXTlast, i.sXTdata, i.sKTdata⟩ := by
  rw [AxisSa.sBeat] at hb
  by_cases h : (s.sReady (saIn i) && (saIn i).sValid) = true
  · have hv : s.sReady (saIn i) = true ∧ i.sKTvalid = true ∧ i.sXTvalid = true := by
      simpa [saIn, sValid] using h
    rw [if_pos h, Option.some.injEq] at hb
    refine ⟨?_, ?_, ?_⟩
    · simp [kTaken, sKTready, sReady, hv.1, hv.2.1, hv.2.2]
    · simp [xTaken, sXTready, sReady, hv.1, hv.2.1, hv.2.2]
    · rw [← hb]
      simp [saIn, sValid, sLast, hv.2.1, hv.2.2]
  · rw [if_neg h] at hb
    cases hb

theorem sBeat_isSome : (s.sBeat (saIn i)).isSome = (kTaken s i).isSome := by
  have hv : (saIn i).sValid = (i.sKTvalid && i.sXTvalid) := rfl
  cases hk : i.sKTvalid <;> cases hx : i.sXTvalid <;> cases hr : s.sReady (saIn i) <;>
    simp [AxisSa.sBeat, kTaken, sKTready, sReady, hv, hk, hx, hr]

end Top

/-! ### Runs -/

/-- The clocked machine of `top`. -/
def top (p : SaParams) (WA : ℕ) : Machine (AxisSa p) (TopIn p WA) := (axisSa p).comap Top.saIn

section Runs

variable (p : SaParams) (WA : ℕ) (u : ℕ → TopIn p WA)

/-- What the array sees of a run. -/
def saRun (t : ℕ) : SaIn p := Top.saIn (u t)

def kBeats (t : ℕ) : List ((Fin p.C → BitVec p.WK) × Bool) := (top p WA).events u Top.kTaken t
def xBeats (t : ℕ) : List ((Fin p.R → BitVec p.WX) × Bool) := (top p WA).events u Top.xTaken t
def aBeats (t : ℕ) : List (Fin p.R → BitVec WA) := (top p WA).events u Top.aTaken t
def yBeats (t : ℕ) : List ((Fin p.R → BitVec p.WY) × Bool) := (top p WA).events u Top.yTaken t

end Runs

variable {p : SaParams} {WA : ℕ} {u : ℕ → TopIn p WA} {t : ℕ}

theorem top_state (u : ℕ → TopIn p WA) (t : ℕ) :
    (top p WA).state u t = (axisSa p).state (saRun p WA u) t :=
  (axisSa p).comap_state Top.saIn u t

theorem yBeats_succ_of_hold
    (he : ((axisSa p).state (saRun p WA u) t).enShift (saRun p WA u t) = false) :
    yBeats p WA u (t + 1) = yBeats p WA u t := by
  apply Machine.events_succ_none
  rw [top_state]
  exact Top.yTaken_of_hold he

theorem yBeats_succ_of_shift
    (he : ((axisSa p).state (saRun p WA u) t).enShift (saRun p WA u t) = true) :
    yBeats p WA u (t + 1) = yBeats p WA u t
      ++ [(Top.mYTdata ((axisSa p).state (saRun p WA u) t) (u t),
        Top.mYTlast ((axisSa p).state (saRun p WA u) t) (u t))] := by
  apply Machine.events_succ_some
  rw [top_state]
  exact Top.yTaken_of_shift he

/-- A `y` beat is handed over for each beat of the array. -/
theorem length_yBeats (t : ℕ) :
    (yBeats p WA u t).length = (outBeats p (saRun p WA u) t).length := by
  apply Machine.events_length_congr
  intro n _
  rw [top_state]
  exact Top.yTaken_isSome _ _

/-- The operands are taken for each beat of the array. -/
theorem length_kBeats (t : ℕ) :
    (kBeats p WA u t).length = (inBeats p (saRun p WA u) t).length := by
  apply Machine.events_length_congr
  intro n _
  rw [top_state]
  exact (Top.sBeat_isSome _ _).symm

theorem length_xBeats (t : ℕ) : (xBeats p WA u t).length = (kBeats p WA u t).length :=
  Machine.events_length_congr fun _ _ => (Top.kTaken_isSome _ _).symm

theorem length_aBeats (t : ℕ) : (aBeats p WA u t).length = (yBeats p WA u t).length :=
  Machine.events_length_congr fun _ _ => Top.aTaken_isSome _ _

/-! ### The end of the result packet -/

namespace Top

/-- With the last beat of a result packet both operand streams drive `tlast`. -/
def LastOk (s : AxisSa p) (i : TopIn p WA) : Prop :=
  mYTvalid s i = true → i.mYTready = true → s.mLast = true →
    i.sKTlast = true ∧ i.sXTlast = true

instance (s : AxisSa p) (i : TopIn p WA) : Decidable (LastOk s i) :=
  inferInstanceAs (Decidable (_ → _ → _ → _ ∧ _))

theorem lastOk_of_hold {s : AxisSa p} {i : TopIn p WA} (he : s.enShift (saIn i) = false) :
    LastOk s i := by
  intro hv hr
  have hy := yTaken_of_hold he
  rw [yTaken, if_pos (by rw [hv, hr]; rfl)] at hy
  cases hy

/-- `m_y_tlast` is `m_last` where the operand streams drive `tlast`. -/
theorem mYTlast_iff_of_shift {s : AxisSa p} {i : TopIn p WA} (he : s.enShift (saIn i) = true) :
    (mYTlast s i = true ↔ s.mLast = true) ↔ LastOk s i := by
  obtain ⟨hv, hr⟩ := AxisSa.enShift_iff.mp he
  have hr' : i.mYTready = true ∧ i.sATvalid = true := by simpa [saIn, mReady] using hr
  cases hl : s.mLast <;>
    simp [mYTlast, sLast, LastOk, mYTvalid, hv, hr'.1, hr'.2, hl]

end Top

/-- **`m_y_tlast` marks every `C`-th `y` beat in exactly the runs in which the
operand streams drive `tlast` in that cycle**, although they may be idle then. -/
theorem yBeats_last_iff
    (hm : MarksEvery p.C ((outBeats p (saRun p WA u) t).map AxisSa.OutBeat.mLast)) :
    MarksEvery p.C ((yBeats p WA u t).map Prod.snd) ↔ (top p WA).Obeys Top.LastOk u t := by
  induction t with
  | zero => exact ⟨fun _ n hn => absurd hn (Nat.not_lt_zero n), fun _ => marksEvery_nil p.C⟩
  | succ t ih =>
    rw [Machine.obeys_succ, top_state]
    cases he : ((axisSa p).state (saRun p WA u) t).enShift (saRun p WA u t) with
    | false =>
      rw [outBeats_succ_of_hold he] at hm
      rw [yBeats_succ_of_hold he, ih hm, and_iff_left (Top.lastOk_of_hold he)]
    | true =>
      rw [outBeats_succ_of_shift he, List.map_append, List.map_singleton, marksEvery_snoc,
        List.length_map, ← length_yBeats] at hm
      rw [yBeats_succ_of_shift he, List.map_append, List.map_singleton, marksEvery_snoc,
        List.length_map, ih hm.1, ← hm.2, Top.mYTlast_iff_of_shift he]

/-- A job of one beat with the operand streams at rest afterwards. -/
def restingSources : ℕ → TopIn oneByOne 8 := fun t =>
  { sKTvalid := t == 0, sKTlast := t == 0, sKTdata := fun _ => 1
    sXTvalid := t == 0, sXTlast := t == 0, sXTdata := fun _ => 3
    sATvalid := true, sATdata := fun _ => 4, mYTready := true }

/-- The only `y` beat is the last of its packet and has no `tlast`. -/
theorem restingSources_no_last :
    MarksEvery 1 ((outBeats oneByOne (saRun _ _ restingSources) 5).map AxisSa.OutBeat.mLast) ∧
      ¬ MarksEvery 1 ((yBeats oneByOne 8 restingSources 5).map Prod.snd) := by
  decide

/-- The same job with the operand streams holding their last beat's `tlast`. -/
def holdingSources : ℕ → TopIn oneByOne 8 := fun t =>
  { restingSources t with sKTlast := true, sXTlast := true }

/-- Its `y` beat has `tlast`. -/
theorem holdingSources_last : (yBeats oneByOne 8 holdingSources 5).length = 1 ∧
    MarksEvery 1 ((yBeats oneByOne 8 holdingSources 5).map Prod.snd) :=
  ⟨by decide, (yBeats_last_iff (by decide)).mpr (by decide)⟩

end AxisSystolic
