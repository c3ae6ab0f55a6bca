import AxisSystolic.Mem.Lanes
import AxisSystolic.Sync.Flow
import AxisSystolic.Sync.Groups
import AxisSystolic.Top.Adapter
import Mathlib.Data.Nat.Log

/-!
# From narrow beats to wide ones (`alex_axis_adapter.sv`, `upsize`)

The beats of the `s` side are put one after the other into the segments of the output
register, up to the last segment or to `tlast`.  A beat that comes while the output
register waits for the `m` side is kept in a second register.

With the first segment the whole of `tkeep` is written, so that the segments that stay
empty have no byte.  The segments above are not written at all, and `tdata` has there what
earlier beats have left.
-/

namespace AxisSystolic

open Sync Mem

/-! ### Beats -/

/-- The widths of `tid`, `tdest` and `tuser`, and which of them are passed on. -/
structure SideParams where
  idEnable : Bool
  idWidth : ℕ
  destEnable : Bool
  destWidth : ℕ
  userEnable : Bool
  userWidth : ℕ

structure AxisSide (q : SideParams) where
  tid : BitVec q.idWidth
  tdest : BitVec q.destWidth
  tuser : BitVec q.userWidth

/-- What is not passed on reads as zero. -/
def AxisSide.enabled {q : SideParams} (x : AxisSide q) : AxisSide q where
  tid := if q.idEnable then x.tid else 0
  tdest := if q.destEnable then x.tdest else 0
  tuser := if q.userEnable then x.tuser else 0

/-- A beat of a stream. -/
structure AxisBeat (dataWidth keepWidth : ℕ) (q : SideParams) where
  tdata : BitVec dataWidth
  tkeep : BitVec keepWidth
  tlast : Bool
  side : AxisSide q

namespace AxisBeat

variable {dw kw : ℕ} {q : SideParams}

/-- The registers of a beat after reset. -/
def zero : AxisBeat dw kw q := ⟨0, 0, false, 0, 0, 0⟩

/-- What a beat carries: the bytes that are kept, and the end of a packet. -/
def carried (c : ℕ) (b : AxisBeat dw kw q) : List (Option (BitVec c)) :=
  (kept c kw b.tdata b.tkeep).map some ++ if b.tlast then [none] else []

end AxisBeat

namespace AxisAdapter

variable (a : AxisAdapter) (q : SideParams)

abbrev SBeat : Type := AxisBeat a.sDataWidth.toNat a.sKeepWidth.toNat q

abbrev MBeat : Type := AxisBeat a.mDataWidth.toNat a.mKeepWidth.toNat q

/-- The wires `m_axis_*` of an output register. -/
def mAxis {a : AxisAdapter} {q : SideParams} (m : a.MBeat q) : a.MBeat q where
  tdata := m.tdata
  tkeep := if a.mKeepEnable then m.tkeep else BitVec.allOnes _
  tlast := m.tlast
  side := m.side.enabled

end AxisAdapter

/-! ### The registers -/

/-- The registers. -/
structure Upsize (a : AxisAdapter) (q : SideParams) where
  segReg : ℕ
  s : a.SBeat q
  sValid : Bool
  m : a.MBeat q
  mValid : Bool

namespace Upsize

variable {a : AxisAdapter} {q : SideParams}

def reset : Upsize a q := ⟨0, .zero, false, .zero, false⟩

variable (r : Upsize a q) (i : StageIn (a.SBeat q))

def sTready : Bool := !r.sValid

/-- The output register is empty, or is emptied now. -/
def free : Bool := !r.mValid || i.ready

/-- The beat in front: of the register if it has one, else of the input. -/
def front : a.SBeat q := if r.sValid then r.s else i.offer.beat

/-- The size of `seg_reg`. -/
def segBits (a : AxisAdapter) : ℕ := Nat.clog 2 a.upsize.segCount.toNat

/-- The beat in front ends the output beat. -/
def closes : Bool :=
  (r.front i).tlast || r.segReg == (a.upsize.segCount.toNat - 1) % 2 ^ segBits a

/-- The output register, when it is free. -/
def mNext : a.MBeat q where
  tdata :=
    if r.segReg = 0 then
      setSlice a.upsize.segDataWidth.toNat r.segReg ((r.front i).tdata.setWidth _) r.m.tdata
    else setSlice a.upsize.segDataWidth.toNat r.segReg (i.offer.beat.tdata.setWidth _) r.m.tdata
  tkeep :=
    if r.segReg = 0 then (r.front i).tkeep.setWidth _
    else setSlice a.upsize.segKeepWidth.toNat r.segReg (i.offer.beat.tkeep.setWidth _) r.m.tkeep
  tlast := (r.front i).tlast
  side := (r.front i).side

/-- A clock edge. -/
def step : Upsize a q :=
  if r.free i then
    if r.sValid || i.offer.valid then
      { r with
        segReg := if r.closes i then 0 else (r.segReg + 1) % 2 ^ segBits a
        sValid := false
        m := r.mNext i
        mValid := r.closes i }
    else { r with m := r.mNext i, mValid := false }
  else if i.offer.valid && r.sTready then { r with s := i.offer.beat, sValid := true }
  else r

end Upsize

/-- The branch `upsize`. -/
def upsize (a : AxisAdapter) (q : SideParams) : Stage (a.SBeat q) (a.MBeat q) where
  Regs := Upsize a q
  reset := Upsize.reset
  step := Upsize.step
  ready r _ := r.sTready
  offer r _ := ⟨r.mValid, AxisAdapter.mAxis r.m⟩

/-! ### Widths -/

namespace AxisAdapter

/-- The `m` side is `n` times as wide. -/
structure Widens (a : AxisAdapter) (n : ℕ) : Prop where
  two_le : 2 ≤ n
  sKeepEnable : a.sKeepEnable = true
  mKeepEnable : a.mKeepEnable = true
  sKeep_pos : 0 < a.sKeepWidth
  sData_nonneg : 0 ≤ a.sDataWidth
  mKeep : a.mKeepWidth = n * a.sKeepWidth
  mData : a.mDataWidth = n * a.sDataWidth

namespace Widens

variable {a : AxisAdapter} {q : SideParams} {n : ℕ}

theorem upsize_eq (h : a.Widens n) : a.upsize = ⟨n, a.sDataWidth, a.sKeepWidth⟩ := by
  have hn := h.two_le
  have hs : a.sByteLanes = a.sKeepWidth := if_pos h.sKeepEnable
  have hm : a.mByteLanes = n * a.sKeepWidth := (if_pos h.mKeepEnable).trans h.mKeep
  exact AxisAdapter.upsize_eq h.sKeep_pos (by omega) hs hm h.mData

theorem segments (h : a.Widens n) : a.segments = some a.upsize := by
  have hn := h.two_le
  have hs : a.sByteLanes = a.sKeepWidth := if_pos h.sKeepEnable
  have hm : a.mByteLanes = n * a.sKeepWidth := (if_pos h.mKeepEnable).trans h.mKeep
  have hlt : a.sKeepWidth < n * a.sKeepWidth := lt_mul_of_one_lt_left h.sKeep_pos (by omega)
  rw [AxisAdapter.segments, hs, hm, if_neg hlt.ne', if_pos hlt]

theorem mKeep_toNat (h : a.Widens n) : a.mKeepWidth.toNat = n * a.sKeepWidth.toNat := by
  rw [h.mKeep, Int.toNat_mul (by omega) h.sKeep_pos.le, Int.toNat_natCast]

theorem mData_toNat (h : a.Widens n) : a.mDataWidth.toNat = n * a.sDataWidth.toNat := by
  rw [h.mData, Int.toNat_mul (by omega) h.sData_nonneg, Int.toNat_natCast]

theorem mAxis_eq (h : a.Widens n) (m : a.MBeat q) :
    mAxis m = { m with side := m.side.enabled } := by
  rw [mAxis, if_pos h.mKeepEnable]

end Widens

end AxisAdapter

/-! ### The output register -/

namespace Upsize

variable {a : AxisAdapter} {q : SideParams} {n : ℕ} {r : Upsize a q} {i : StageIn (a.SBeat q)}

/-- How the registers go together: while a beat is offered nothing is put together, only
then is a beat kept aside, and above the segment that is filled next nothing is kept. -/
structure Inv (n : ℕ) (r : Upsize a q) : Prop where
  seg_lt : r.segReg < n
  seg_of_offer : r.mValid = true → r.segReg = 0
  offer_of_skid : r.sValid = true → r.mValid = true
  above : r.segReg ≠ 0 → ∀ j, r.segReg < j → slice a.sKeepWidth.toNat j r.m.tkeep = 0

theorem Inv.seg_of_skid (hi : r.Inv n) (hs : r.sValid = true) : r.segReg = 0 :=
  hi.seg_of_offer (hi.offer_of_skid hs)

/-- The register is filled from the beat in front. -/
theorem mNext_eq (h : a.Widens n) (hi : r.Inv n) :
    (r.mNext i).tdata = setSlice a.sDataWidth.toNat r.segReg (r.front i).tdata r.m.tdata ∧
    (r.mNext i).tkeep = if r.segReg = 0 then (r.front i).tkeep.setWidth _
      else setSlice a.sKeepWidth.toNat r.segReg (r.front i).tkeep r.m.tkeep := by
  have hfront : r.segReg ≠ 0 → r.front i = i.offer.beat := by
    intro h0
    exact if_neg fun hs => h0 (hi.seg_of_skid hs)
  unfold mNext
  rw [h.upsize_eq]
  by_cases h0 : r.segReg = 0
  · simp [h0]
  · simp [h0, hfront h0]

theorem closes_iff (h : a.Widens n) :
    r.closes i = ((r.front i).tlast || r.segReg + 1 == n) := by
  have hn := h.two_le
  have hlt : n - 1 < 2 ^ segBits a := by
    rw [segBits, h.upsize_eq]
    have := Nat.le_pow_clog (b := 2) Nat.one_lt_two n
    simp only [Int.toNat_natCast]
    omega
  have heq : (r.segReg == n - 1) = (r.segReg + 1 == n) := by
    rw [Bool.eq_iff_iff, beq_iff_eq, beq_iff_eq]
    omega
  rw [closes, h.upsize_eq]
  simp only [Int.toNat_natCast]
  rw [Nat.mod_eq_of_lt hlt, heq]

/-- `seg_reg` does not wrap around. -/
theorem seg_succ (h : a.Widens n) (hi : r.Inv n) (hc : r.closes i = false) :
    r.segReg + 1 < n ∧ (r.segReg + 1) % 2 ^ segBits a = r.segReg + 1 := by
  rw [closes_iff h] at hc
  have hne : r.segReg + 1 ≠ n := by
    intro heq
    simp [heq] at hc
  have hlt := hi.seg_lt
  refine ⟨by omega, Nat.mod_eq_of_lt ?_⟩
  rw [segBits, h.upsize_eq]
  have := Nat.le_pow_clog (b := 2) Nat.one_lt_two n
  simp only [Int.toNat_natCast]
  omega

section Segments

variable (h : a.Widens n) (hi : r.Inv n)

include h hi

theorem mNext_tdata_below {j : ℕ} (hj : j < r.segReg) :
    slice a.sDataWidth.toNat j (r.mNext i).tdata = slice a.sDataWidth.toNat j r.m.tdata := by
  rw [(mNext_eq h hi).1, slice_setSlice_of_ne hj.ne]

theorem mNext_tkeep_below {j : ℕ} (hj : j < r.segReg) :
    slice a.sKeepWidth.toNat j (r.mNext i).tkeep = slice a.sKeepWidth.toNat j r.m.tkeep := by
  rw [(mNext_eq h hi).2, if_neg (Nat.ne_of_gt (Nat.lt_of_le_of_lt (Nat.zero_le j) hj)),
    slice_setSlice_of_ne hj.ne]

theorem mNext_tdata_seg :
    slice a.sDataWidth.toNat r.segReg (r.mNext i).tdata = (r.front i).tdata := by
  rw [(mNext_eq h hi).1, slice_setSlice_self]
  rw [h.mData_toNat]
  exact Nat.mul_le_mul_right _ hi.seg_lt

theorem mNext_tkeep_seg :
    slice a.sKeepWidth.toNat r.segReg (r.mNext i).tkeep = (r.front i).tkeep := by
  have hfit : (r.segReg + 1) * a.sKeepWidth.toNat ≤ a.mKeepWidth.toNat := by
    rw [h.mKeep_toNat]
    exact Nat.mul_le_mul_right _ hi.seg_lt
  rw [(mNext_eq h hi).2]
  by_cases h0 : r.segReg = 0
  · rw [if_pos h0, slice_setWidth hfit, h0, slice_zero_self]
  · rw [if_neg h0, slice_setSlice_self hfit]

theorem mNext_tkeep_above {j : ℕ} (hj : r.segReg < j) :
    slice a.sKeepWidth.toNat j (r.mNext i).tkeep = 0 := by
  rw [(mNext_eq h hi).2]
  by_cases h0 : r.segReg = 0
  · rw [if_pos h0]
    apply BitVec.eq_of_getLsbD_eq
    intro b hb
    have hpast : a.sKeepWidth.toNat ≤ j * a.sKeepWidth.toNat + b :=
      Nat.le_add_right_of_le (Nat.le_mul_of_pos_left _ (Nat.lt_of_le_of_lt (Nat.zero_le _) hj))
    rw [getLsbD_slice hb, BitVec.getLsbD_setWidth, BitVec.getLsbD_of_ge _ _ hpast, Bool.and_false]
    exact BitVec.getLsbD_zero.symm
  · rw [if_neg h0, slice_setSlice_of_ne hj.ne']
    exact hi.above h0 j hj

end Segments

/-! ### A cycle -/

/-- The beat that goes into the output register. -/
def incoming (r : Upsize a q) (i : StageIn (a.SBeat q)) : Option (a.SBeat q) :=
  if r.sValid || i.offer.valid then some (r.front i) else none

theorem step_of_incoming (hg : r.free i = true) {b : a.SBeat q} (hb : r.incoming i = some b) :
    r.front i = b ∧ r.step i = { r with
      segReg := if r.closes i then 0 else (r.segReg + 1) % 2 ^ segBits a
      sValid := false
      m := r.mNext i
      mValid := r.closes i } := by
  rw [incoming] at hb
  split at hb
  · next hv => exact ⟨Option.some.inj hb, by rw [step, if_pos hg, if_pos hv]⟩
  · cases hb

theorem step_of_idle (hg : r.free i = true) (hb : r.incoming i = none) :
    r.sValid = false ∧ i.offer.valid = false ∧
      r.step i = { r with m := r.mNext i, mValid := false } := by
  rw [incoming] at hb
  split at hb
  · cases hb
  · next hv =>
    refine ⟨?_, ?_, by rw [step, if_pos hg, if_neg hv]⟩ <;> simp_all

theorem step_of_stall (hg : ¬r.free i = true) : r.mValid = true ∧ i.ready = false ∧
    r.step i = if i.offer.valid && r.sTready then { r with s := i.offer.beat, sValid := true }
      else r := by
  refine ⟨?_, ?_, by rw [step, if_neg hg]⟩ <;> simp_all [free]

theorem inv_reset (h : a.Widens n) : (reset : Upsize a q).Inv n where
  seg_lt := Nat.lt_of_lt_of_le Nat.two_pos h.two_le
  seg_of_offer hv := nomatch hv
  offer_of_skid hs := nomatch hs
  above h0 := absurd rfl h0

theorem Inv.step (h : a.Widens n) (hi : r.Inv n) (i : StageIn (a.SBeat q)) :
    (r.step i).Inv n := by
  by_cases hg : r.free i = true
  · cases hb : r.incoming i with
    | none =>
      rw [(step_of_idle hg hb).2.2]
      exact ⟨hi.seg_lt, (fun hv => nomatch hv),
        (fun hs => absurd hs (by simp [(step_of_idle hg hb).1])),
        fun _ j hj => mNext_tkeep_above h hi hj⟩
    | some b =>
      rw [(step_of_incoming hg hb).2]
      cases hc : r.closes i with
      | true =>
        exact ⟨Nat.lt_of_lt_of_le Nat.two_pos h.two_le, fun _ => rfl, (fun hs => nomatch hs),
          fun h0 => absurd rfl h0⟩
      | false =>
        obtain ⟨hlt, hmod⟩ := seg_succ h hi hc
        simp only [Bool.false_eq_true, if_false, hmod]
        exact ⟨hlt, (fun hv => nomatch hv), (fun hs => nomatch hs),
          fun _ j hj => mNext_tkeep_above h hi (Nat.lt_of_succ_lt hj)⟩
  · obtain ⟨hv, _, hs⟩ := step_of_stall hg
    rw [hs]
    split
    · exact ⟨hi.seg_lt, hi.seg_of_offer, fun _ => hv, hi.above⟩
    · exact hi

/-! ### What is carried -/

/-- The bytes in the segments that are filled. -/
def filling (c : ℕ) (r : Upsize a q) : List (Option (BitVec c)) :=
  (kept c (r.segReg * a.sKeepWidth.toNat) r.m.tdata r.m.tkeep).map some

/-- What the registers carry. -/
def held (c : ℕ) (r : Upsize a q) : List (Option (BitVec c)) :=
  (if r.mValid then (AxisAdapter.mAxis r.m).carried c else []) ++ r.filling c ++
    if r.sValid then r.s.carried c else []

variable {c : ℕ}

/-- The segments below stay as they are. -/
theorem kept_mNext_below (h : a.Widens n) (hi : r.Inv n)
    (hc : a.sDataWidth.toNat = a.sKeepWidth.toNat * c) :
    kept c (r.segReg * a.sKeepWidth.toNat) (r.mNext i).tdata (r.mNext i).tkeep
      = kept c (r.segReg * a.sKeepWidth.toNat) r.m.tdata r.m.tkeep := by
  rw [kept_mul, kept_mul, ← hc]
  apply List.flatMap_congr
  intro j hj
  have hlt := List.mem_range.mp hj
  rw [mNext_tdata_below h hi hlt, mNext_tkeep_below h hi hlt]

/-- The next segment gets the beat in front. -/
theorem kept_mNext (h : a.Widens n) (hi : r.Inv n)
    (hc : a.sDataWidth.toNat = a.sKeepWidth.toNat * c) :
    kept c ((r.segReg + 1) * a.sKeepWidth.toNat) (r.mNext i).tdata (r.mNext i).tkeep
      = kept c (r.segReg * a.sKeepWidth.toNat) r.m.tdata r.m.tkeep
        ++ kept c a.sKeepWidth.toNat (r.front i).tdata (r.front i).tkeep := by
  rw [kept_mul_succ, kept_mNext_below h hi hc, ← hc, mNext_tdata_seg h hi, mNext_tkeep_seg h hi]

theorem kept_mNext_all (h : a.Widens n) (hi : r.Inv n)
    (hc : a.sDataWidth.toNat = a.sKeepWidth.toNat * c) :
    kept c a.mKeepWidth.toNat (r.mNext i).tdata (r.mNext i).tkeep
      = kept c (r.segReg * a.sKeepWidth.toNat) r.m.tdata r.m.tkeep
        ++ kept c a.sKeepWidth.toNat (r.front i).tdata (r.front i).tkeep := by
  have hall : kept c a.mKeepWidth.toNat (r.mNext i).tdata (r.mNext i).tkeep
      = kept c (n * a.sKeepWidth.toNat) (r.mNext i).tdata (r.mNext i).tkeep :=
    congrArg (fun m => kept c m _ _) h.mKeep_toNat
  rw [hall, kept_mul_of_le hi.seg_lt fun j hj _ => mNext_tkeep_above h hi hj, kept_mNext h hi hc]

/-- What the output register carries with the beat in front. -/
theorem carried_mNext (h : a.Widens n) (hi : r.Inv n)
    (hc : a.sDataWidth.toNat = a.sKeepWidth.toNat * c) :
    (AxisAdapter.mAxis (r.mNext i)).carried c = r.filling c ++ (r.front i).carried c := by
  rw [h.mAxis_eq, AxisBeat.carried, AxisBeat.carried, filling, ← List.append_assoc,
    ← List.map_append, ← kept_mNext_all h hi hc]
  rfl

/-- What is put together with the beat in front. -/
theorem filling_step (h : a.Widens n) (hi : r.Inv n)
    (hc : a.sDataWidth.toNat = a.sKeepWidth.toNat * c) (hg : r.free i = true) {b : a.SBeat q}
    (hb : r.incoming i = some b) : (r.step i).held c = r.filling c ++ b.carried c := by
  obtain ⟨rfl, hs⟩ := step_of_incoming hg hb
  rw [hs]
  cases hcl : r.closes i with
  | true =>
    simp [held, filling, carried_mNext h hi hc]
  | false =>
    have hlast : (r.front i).tlast = false := by
      rw [closes, Bool.or_eq_false_iff] at hcl
      exact hcl.1
    simp [held, filling, (seg_succ h hi hcl).2, kept_mNext h hi hc, AxisBeat.carried, hlast]

theorem filling_idle (h : a.Widens n) (hi : r.Inv n)
    (hc : a.sDataWidth.toNat = a.sKeepWidth.toNat * c) (hg : r.free i = true)
    (hb : r.incoming i = none) : (r.step i).held c = r.filling c := by
  obtain ⟨hsv, _, hs⟩ := step_of_idle hg hb
  rw [hs]
  simp [held, filling, kept_mNext_below h hi hc, hsv]

/-- The beat in front is in the register or comes in. -/
theorem incoming_eq : (if r.sValid then [r.s] else []) ++ ((upsize a q).taken r i).toList
    = (r.incoming i).toList := by
  cases hsv : r.sValid <;> cases hv : i.offer.valid <;>
    simp [Stage.taken, upsize, sTready, incoming, front, hsv, hv]

theorem given_of_free (hg : r.free i = true) : ((upsize a q).given r i).toList
    = if r.mValid then [AxisAdapter.mAxis r.m] else [] := by
  cases hv : r.mValid with
  | false => simp [Stage.given, upsize, hv]
  | true =>
    have hr : i.ready = true := by simpa [free, hv] using hg
    simp [Stage.given, upsize, hv, hr]

/-- What is given out and what is put together, one after the other. -/
theorem held_eq : r.held c
    = (if r.mValid then [AxisAdapter.mAxis r.m] else []).flatMap (AxisBeat.carried c)
      ++ (r.filling c ++ (if r.sValid then [r.s] else []).flatMap (AxisBeat.carried c)) := by
  cases hm : r.mValid <;> cases hs : r.sValid <;> simp [held, hm, hs]

/-- A cycle moves what is carried. -/
theorem held_step (h : a.Widens n) (hi : r.Inv n)
    (hc : a.sDataWidth.toNat = a.sKeepWidth.toNat * c) :
    r.held c ++ ((upsize a q).taken r i).toList.flatMap (AxisBeat.carried c)
      = ((upsize a q).given r i).toList.flatMap (AxisBeat.carried c) ++ (r.step i).held c := by
  by_cases hg : r.free i = true
  · rw [held_eq, given_of_free hg, List.append_assoc, List.append_assoc, ← List.flatMap_append,
      incoming_eq]
    cases hb : r.incoming i with
    | none => rw [filling_idle h hi hc hg hb]; simp
    | some b => rw [filling_step h hi hc hg hb]; simp
  · obtain ⟨hv, hr, hs⟩ := step_of_stall hg
    have hgive : (upsize a q).given r i = none := by simp [Stage.given, hr]
    rw [hs, hgive]
    cases hsv : r.sValid <;> cases hiv : i.offer.valid <;>
      simp [Stage.taken, upsize, sTready, held, filling, hsv, hiv, hv]

/-! ### Groups of beats -/

/-- The beats `g` are in the segments of `m`, and above them there is nothing. -/
structure Packs (g : List (a.SBeat q)) (m : a.MBeat q) : Prop where
  tdata : ∀ j (hj : j < g.length), slice a.sDataWidth.toNat j m.tdata = g[j].tdata
  tkeep : ∀ j (hj : j < g.length), slice a.sKeepWidth.toNat j m.tkeep = g[j].tkeep
  above : ∀ j, g.length ≤ j → slice a.sKeepWidth.toNat j m.tkeep = 0
  ends : ∃ b, g.getLast? = some b ∧ m.tlast = b.tlast ∧ m.side = b.side.enabled

/-- The beats `g` are in the segments that are filled. -/
structure Fills (g : List (a.SBeat q)) (r : Upsize a q) : Prop where
  length : g.length = r.segReg
  tdata : ∀ j (hj : j < g.length), slice a.sDataWidth.toNat j r.m.tdata = g[j].tdata
  tkeep : ∀ j (hj : j < g.length), slice a.sKeepWidth.toNat j r.m.tkeep = g[j].tkeep

variable {g : List (a.SBeat q)}

theorem Fills.mNext (h : a.Widens n) (hi : r.Inv n) (hf : Fills g r) (i : StageIn (a.SBeat q)) :
    ∀ j (hj : j < (g ++ [r.front i]).length),
      slice a.sDataWidth.toNat j (r.mNext i).tdata = (g ++ [r.front i])[j].tdata ∧
      slice a.sKeepWidth.toNat j (r.mNext i).tkeep = (g ++ [r.front i])[j].tkeep := by
  intro j hj
  rw [List.length_append, List.length_singleton] at hj
  rcases Nat.lt_or_eq_of_le (Nat.le_of_lt_succ hj) with hlt | rfl
  · have hlt' : j < r.segReg := hf.length ▸ hlt
    rw [List.getElem_append_left hlt, mNext_tdata_below h hi hlt', mNext_tkeep_below h hi hlt']
    exact ⟨hf.tdata j hlt, hf.tkeep j hlt⟩
  · have hdata := mNext_tdata_seg (i := i) h hi
    have hkeep := mNext_tkeep_seg (i := i) h hi
    rw [← hf.length] at hdata hkeep
    rw [List.getElem_concat_length rfl]
    exact ⟨hdata, hkeep⟩

theorem Fills.packs (h : a.Widens n) (hi : r.Inv n) (hf : Fills g r) (i : StageIn (a.SBeat q)) :
    Packs (g ++ [r.front i]) (AxisAdapter.mAxis (r.mNext i)) := by
  rw [h.mAxis_eq]
  refine ⟨?_, ?_, ?_, ?_⟩
  · exact fun j hj => (hf.mNext h hi i j hj).1
  · exact fun j hj => (hf.mNext h hi i j hj).2
  · intro j hj
    rw [List.length_append, List.length_singleton, hf.length] at hj
    exact mNext_tkeep_above h hi hj
  · exact ⟨r.front i, List.getLast?_concat, rfl, rfl⟩

/-- The beats taken in so far, `took`, against those given out, `gave`, and the registers:
those that are not kept aside have been put into groups, the closed ones have been given
out or are offered, and the open one is being filled. -/
def Grouped (n : ℕ) (took : List (a.SBeat q)) (gave : List (a.MBeat q)) (r : Upsize a q) : Prop :=
  ∃ used, took = used ++ (if r.sValid then [r.s] else []) ∧
    List.Forall₂ Packs (groups AxisBeat.tlast n used).closed
      (gave ++ if r.mValid then [AxisAdapter.mAxis r.m] else []) ∧
    Fills (groups AxisBeat.tlast n used).rest r

variable {took : List (a.SBeat q)} {gave : List (a.MBeat q)}

theorem Grouped.step_of_incoming (h : a.Widens n) (hi : r.Inv n) (hgr : Grouped n took gave r)
    (hg : r.free i = true) {b : a.SBeat q} (hb : r.incoming i = some b) :
    Grouped n (took ++ ((upsize a q).taken r i).toList)
      (gave ++ ((upsize a q).given r i).toList) (r.step i) := by
  obtain ⟨used, rfl, hpacks, hfills⟩ := hgr
  obtain ⟨rfl, hs⟩ := Upsize.step_of_incoming hg hb
  rw [List.append_assoc, incoming_eq, hb, given_of_free hg, hs]
  have hclose : (AxisBeat.tlast (r.front i)
      || (groups AxisBeat.tlast n used).rest.length + 1 == n) = r.closes i := by
    rw [closes_iff h, hfills.length]
  refine ⟨used ++ [r.front i], by simp, ?_, ?_⟩
  · cases hc : r.closes i with
    | true =>
      rw [groups_concat_close (hclose.trans hc)]
      exact List.rel_append hpacks (.cons (hfills.packs h hi i) .nil)
    | false =>
      rw [groups_concat_keep (hclose.trans hc)]
      simpa using hpacks
  · cases hc : r.closes i with
    | true =>
      rw [groups_concat_close (hclose.trans hc)]
      exact ⟨rfl, fun j hj => absurd hj (Nat.not_lt_zero j), fun j hj => absurd hj (Nat.not_lt_zero j)⟩
    | false =>
      rw [groups_concat_keep (hclose.trans hc)]
      refine ⟨?_, fun j hj => (hfills.mNext h hi i j hj).1, fun j hj => (hfills.mNext h hi i j hj).2⟩
      simp [hfills.length, (seg_succ h hi hc).2]

theorem Grouped.step (h : a.Widens n) (hi : r.Inv n) (hgr : Grouped n took gave r)
    (i : StageIn (a.SBeat q)) :
    Grouped n (took ++ ((upsize a q).taken r i).toList)
      (gave ++ ((upsize a q).given r i).toList) (r.step i) := by
  by_cases hg : r.free i = true
  · cases hb : r.incoming i with
    | some b => exact hgr.step_of_incoming h hi hg hb
    | none =>
      obtain ⟨used, rfl, hpacks, hfills⟩ := hgr
      obtain ⟨hsv, hiv, hs⟩ := step_of_idle hg hb
      have hno : (upsize a q).taken r i = none := by simp [Stage.taken, hiv]
      rw [hno, given_of_free hg, hs]
      refine ⟨used, by simp, by simpa using hpacks, hfills.length, ?_, ?_⟩
      · intro j hj
        rw [mNext_tdata_below h hi (hfills.length ▸ hj)]
        exact hfills.tdata j hj
      · intro j hj
        rw [mNext_tkeep_below h hi (hfills.length ▸ hj)]
        exact hfills.tkeep j hj
  · obtain ⟨used, rfl, hpacks, hfills⟩ := hgr
    obtain ⟨hv, hr, hs⟩ := step_of_stall hg
    have hgive : (upsize a q).given r i = none := by simp [Stage.given, hr]
    rw [hgive, hs]
    refine ⟨used, ?_, ?_, ?_⟩
    · cases hsv : r.sValid <;> cases hiv : i.offer.valid <;>
        simp [Stage.taken, upsize, sTready, hsv, hiv]
    · split <;> simpa [hv] using hpacks
    · split
      · exact ⟨hfills.length, hfills.tdata, hfills.tkeep⟩
      · exact hfills

end Upsize

/-! ### Runs -/

section Runs

variable {a : AxisAdapter} {q : SideParams} {n c : ℕ}

/-- What the beats carry is conserved. -/
def upsizeConserves (q : SideParams) (h : a.Widens n)
    (hc : a.sDataWidth.toNat = a.sKeepWidth.toNat * c) :
    (upsize a q).Conserves (AxisBeat.carried c) (AxisBeat.carried c) where
  held := Upsize.held c
  Inv := Upsize.Inv n
  inv_reset := Upsize.inv_reset h
  inv_step _ i hi := hi.step h i
  held_reset := by simp [Upsize.held, Upsize.filling, upsize, Upsize.reset]
  moves _ _ hi := Upsize.held_step h hi hc

theorem upsize_steady (P : Upsize a q → Prop) : (upsize a q).Steady P := by
  intro r i o' _ _ hv hr
  have hg : ¬r.free i = true := by
    have hv' : r.mValid = true := hv
    simp [Upsize.free, hv', hr]
  obtain ⟨_, _, hs⟩ := Upsize.step_of_stall hg
  show (upsize a q).offer (Upsize.step r i) o' = _
  rw [hs]
  cases i.offer.valid && Upsize.sTready r <;> rfl

theorem upsize_inv (h : a.Widens n) (v : ℕ → WithRstn (StageIn (a.SBeat q))) (t : ℕ) :
    ((upsize a q).machine.resettable.state v t).Inv n := by
  apply Machine.invariant (Upsize.inv_reset h)
  intro r i hr
  show Upsize.Inv n (if i.rstn then r.step i.val else Upsize.reset)
  cases i.rstn with
  | false => exact Upsize.inv_reset h
  | true => exact hr.step h i.val

/-- When the receiver is ready nothing is kept aside any more. -/
theorem upsize_skid_of_ready {r : Upsize a q} {i : StageIn (a.SBeat q)} (hr : i.ready = true) :
    (r.step i).sValid = false := by
  have hg : r.free i = true := by rw [Upsize.free, hr, Bool.or_true]
  cases hb : r.incoming i with
  | none =>
    obtain ⟨hsv, _, hs⟩ := Upsize.step_of_idle hg hb
    rw [hs]
    exact hsv
  | some b => rw [(Upsize.step_of_incoming hg hb).2]

theorem upsize_lively : (upsize a q).Lively := by
  intro v h t
  obtain ⟨m, hm, hr⟩ := h.ready t
  refine ⟨m + 1, Nat.le_succ_of_le hm, ?_⟩
  rw [Machine.resettable_state_succ_of_rstn (h.rstn m)]
  exact congrArg not (upsize_skid_of_ready hr)

/-- **Every packet comes out once its last beat has been taken in.** -/
theorem upsize_delivers (q : SideParams) (h : a.Widens n)
    (hc : a.sDataWidth.toNat = a.sKeepWidth.toNat * c) :
    (upsize a q).Delivers (AxisBeat.carried c) (AxisBeat.carried c) (· = none) := by
  rintro v hv t p e rfl hp
  have hreg : (upsize a q).Registered := fun _ _ _ => rfl
  have hmore : ∀ m, t ≤ m → p ++ [none] <+:
      ((upsize a q).machine.sinceReset v (upsize a q).taken m).flatMap (AxisBeat.carried c) :=
    fun m hm => hp.trans ((Machine.sinceReset_mono hv.rstn _ hm).flatMap _)
  -- while the packet has not come out, a beat is offered
  have hoffer : ∀ m, t ≤ m → ¬p ++ [none] <+:
      ((upsize a q).machine.sinceReset v (upsize a q).given m).flatMap (AxisBeat.carried c) →
      ((upsize a q).machine.resettable.state v m).mValid = true := by
    intro m hm hno
    by_contra hoff
    have hskid : ¬((upsize a q).machine.resettable.state v m).sValid = true :=
      fun hs => hoff ((upsize_inv h v m).offer_of_skid hs)
    have hbal := hmore m hm
    rw [(upsizeConserves q h hc).balance v m] at hbal
    refine hno (Stage.prefix_of_mark hbal ?_)
    show none ∉ Upsize.held c _
    simp [Upsize.held, Upsize.filling, hoff, hskid]
  by_contra hno
  have hno' : ∀ m, t ≤ m → ¬p ++ [none] <+:
      ((upsize a q).machine.sinceReset v (upsize a q).given m).flatMap (AxisBeat.carried c) :=
    fun m hm hd => hno ⟨m, hm, hd⟩
  obtain ⟨m, hm, hr, _⟩ := Stage.exists_given (upsize_steady fun _ => True) hreg
    (fun _ => trivial) hv (hoffer t le_rfl (hno' t le_rfl))
  have hm1 : t ≤ m + 1 := Nat.le_succ_of_le hm
  -- from then on all there is is on offer
  have hval := hoffer (m + 1) hm1 (hno' _ hm1)
  have hskid : ((upsize a q).machine.resettable.state v (m + 1)).sValid = false := by
    rw [Machine.resettable_state_succ_of_rstn (hv.rstn m)]
    exact upsize_skid_of_ready hr
  have hseg := (upsize_inv h v (m + 1)).seg_of_offer hval
  obtain ⟨m', hm', _, hgave⟩ := Stage.exists_given (upsize_steady fun _ => True) hreg
    (fun _ => trivial) hv hval
  apply hno' (m' + 1) (by omega)
  have hbal := (upsizeConserves q h hc).balance v (m + 1)
  have hheld : (upsizeConserves q h hc).held ((upsize a q).machine.resettable.state v (m + 1))
      = (AxisAdapter.mAxis ((upsize a q).machine.resettable.state v (m + 1)).m).carried c := by
    show Upsize.held c _ = _
    simp [Upsize.held, Upsize.filling, hval, hskid, hseg]
  rw [hgave, List.flatMap_append, List.flatMap_singleton]
  rw [hheld] at hbal
  exact hbal ▸ hmore (m + 1) hm1

theorem upsize_grouped_reset : Upsize.Grouped n [] [] (Upsize.reset : Upsize a q) :=
  ⟨[], rfl, .nil, rfl, fun j hj => absurd hj (Nat.not_lt_zero j),
    fun j hj => absurd hj (Nat.not_lt_zero j)⟩

/-- **Each beat given out packs the next group of the beats taken in.** -/
theorem upsize_grouped (h : a.Widens n) (v : ℕ → WithRstn (StageIn (a.SBeat q))) (t : ℕ) :
    Upsize.Grouped n ((upsize a q).machine.sinceReset v (upsize a q).taken t)
      ((upsize a q).machine.sinceReset v (upsize a q).given t)
      ((upsize a q).machine.resettable.state v t) := by
  induction t with
  | zero => exact upsize_grouped_reset
  | succ t ih =>
    cases hr : (v t).rstn with
    | false =>
      rw [Machine.sinceReset_succ_of_reset hr, Machine.sinceReset_succ_of_reset hr,
        Machine.resettable_state_succ_of_reset hr]
      exact upsize_grouped_reset
    | true =>
      rw [Machine.sinceReset_succ_of_rstn hr, Machine.sinceReset_succ_of_rstn hr,
        Machine.resettable_state_succ_of_rstn hr]
      exact ih.step h (upsize_inv h v t) _

/-- **In every run each wide beat packs the next group of narrow ones, and a packet comes
out once its last beat has been taken in**, if the receiver is ready again and again. -/
theorem upsize_run (q : SideParams) (h : a.Widens n) (v : ℕ → WithRstn (StageIn (a.SBeat q))) :
    (∀ t, Upsize.Grouped n ((upsize a q).machine.sinceReset v (upsize a q).taken t)
      ((upsize a q).machine.sinceReset v (upsize a q).given t)
      ((upsize a q).machine.resettable.state v t)) ∧
    (Stage.Flows v → ∀ c, a.sDataWidth.toNat = a.sKeepWidth.toNat * c →
      ∀ t (p : List (Option (BitVec c))), p ++ [none] <+:
        ((upsize a q).machine.sinceReset v (upsize a q).taken t).flatMap (AxisBeat.carried c) →
      ∃ m, t ≤ m ∧ p ++ [none] <+:
        ((upsize a q).machine.sinceReset v (upsize a q).given m).flatMap (AxisBeat.carried c)) :=
  ⟨fun t => upsize_grouped h v t,
    fun hv _ hc t p hp => upsize_delivers q h hc v hv t p none rfl hp⟩

/-- From bytes to words of two. -/
def byteToHalf : AxisAdapter := ⟨8, true, 1, 16, true, 2⟩

def noSide : SideParams := ⟨false, 1, false, 1, false, 1⟩

/-- Three bytes, the second and the third of which end a packet. -/
def threeBytes : ℕ → WithRstn (StageIn (byteToHalf.SBeat noSide)) := fun t =>
  ⟨true, ⟨t < 3, ⟨BitVec.ofNat 8 (t + 1), 1, t != 0, 0, 0, 0⟩⟩, true⟩

theorem threeBytes_upsize_run :
    Upsize.Grouped 2
        ((upsize byteToHalf noSide).machine.sinceReset threeBytes (upsize byteToHalf noSide).taken 4)
        ((upsize byteToHalf noSide).machine.sinceReset threeBytes (upsize byteToHalf noSide).given 4)
        ((upsize byteToHalf noSide).machine.resettable.state threeBytes 4) ∧
      ∃ m, 4 ≤ m ∧ [some 1, some 2] ++ [none] <+:
        ((upsize byteToHalf noSide).machine.sinceReset threeBytes
          (upsize byteToHalf noSide).given m).flatMap (AxisBeat.carried 8) := by
  have hrun := upsize_run noSide (a := byteToHalf) (n := 2)
    ⟨le_rfl, rfl, rfl, Int.one_pos, by decide, rfl, rfl⟩ threeBytes
  refine ⟨hrun.1 4, hrun.2 ⟨fun _ => rfl, fun t => ⟨t, le_rfl, rfl⟩⟩ 8 rfl 4 [some 1, some 2] ?_⟩
  decide

end Runs

end AxisSystolic
