import AxisSystolic.Top.Upsize

/-!
# From wide beats to narrow ones (`alex_axis_adapter.sv`, `downsize`)

A wide beat is given out segment by segment.  After each of them the data and `tkeep` are
shifted down, and the beat is at its end when nothing of `tkeep` is left: the empty
segments at its top are not given out, those between others are.
-/

namespace AxisSystolic

open Sync Mem

/-- The registers. -/
structure Downsize (a : AxisAdapter) (q : SideParams) where
  s : a.SBeat q
  sValid : Bool
  m : a.MBeat q
  mValid : Bool

namespace AxisAdapter

variable {a : AxisAdapter} {q : SideParams}

/-- Something is kept above the lowest segment. -/
def hasMore (b : a.SBeat q) : Bool := b.tkeep >>> a.downsize.segKeepWidth.toNat != 0

/-- The lowest segment. -/
def lowest (b : a.SBeat q) : a.MBeat q where
  tdata := b.tdata.setWidth _
  tkeep := b.tkeep.setWidth _
  tlast := !hasMore b && b.tlast
  side := b.side

/-- The other segments, moved down. -/
def shifted (b : a.SBeat q) : a.SBeat q where
  tdata := b.tdata >>> a.downsize.segDataWidth.toNat
  tkeep := b.tkeep >>> a.downsize.segKeepWidth.toNat
  tlast := b.tlast
  side := b.side

end AxisAdapter

namespace Downsize

open AxisAdapter

variable {a : AxisAdapter} {q : SideParams}

def reset : Downsize a q := ⟨.zero, false, .zero, false⟩

variable (r : Downsize a q) (i : StageIn (a.SBeat q))

def sTready : Bool := !r.sValid

/-- The output register is empty, or is emptied now. -/
def free : Bool := !r.mValid || i.ready

/-- The beat in front: of the register if it has one, else of the input. -/
def front : a.SBeat q := if r.sValid then r.s else i.offer.beat

/-- A clock edge. -/
def step : Downsize a q :=
  if r.free i then
    if r.sValid || (i.offer.valid && r.sTready) then
      { s := shifted (r.front i)
        sValid := hasMore (r.front i)
        m := lowest (r.front i)
        mValid := true }
    else { r with m := { lowest (r.front i) with tlast := false }, mValid := false }
  else if i.offer.valid && r.sTready then { r with s := i.offer.beat, sValid := true }
  else r

end Downsize

/-- The branch `downsize`. -/
def downsize (a : AxisAdapter) (q : SideParams) : Stage (a.SBeat q) (a.MBeat q) where
  Regs := Downsize a q
  reset := Downsize.reset
  step := Downsize.step
  ready r _ := r.sTready
  offer r _ := ⟨r.mValid, AxisAdapter.mAxis r.m⟩

namespace AxisAdapter

/-! ### Widths -/

/-- The `s` side is `n` times as wide. -/
structure Narrows (a : AxisAdapter) (n : ℕ) : Prop where
  two_le : 2 ≤ n
  sKeepEnable : a.sKeepEnable = true
  mKeepEnable : a.mKeepEnable = true
  mKeep_pos : 0 < a.mKeepWidth
  mData_nonneg : 0 ≤ a.mDataWidth
  sKeep : a.sKeepWidth = n * a.mKeepWidth
  sData : a.sDataWidth = n * a.mDataWidth

variable {a : AxisAdapter} {q : SideParams} {n c k : ℕ} {b : a.SBeat q}

namespace Narrows

theorem downsize_eq (h : a.Narrows n) : a.downsize = ⟨n, a.mDataWidth, a.mKeepWidth⟩ := by
  have hn := h.two_le
  have hm : a.mByteLanes = a.mKeepWidth := if_pos h.mKeepEnable
  have hs : a.sByteLanes = n * a.mKeepWidth := (if_pos h.sKeepEnable).trans h.sKeep
  exact AxisAdapter.downsize_eq h.mKeep_pos (by omega) hm hs h.sData

theorem segments (h : a.Narrows n) : a.segments = some a.downsize := by
  have hn := h.two_le
  have hm : a.mByteLanes = a.mKeepWidth := if_pos h.mKeepEnable
  have hs : a.sByteLanes = n * a.mKeepWidth := (if_pos h.sKeepEnable).trans h.sKeep
  have hlt : a.mKeepWidth < n * a.mKeepWidth := lt_mul_of_one_lt_left h.mKeep_pos (by omega)
  rw [AxisAdapter.segments, hs, hm, if_neg hlt.ne, if_neg hlt.le.not_gt]

theorem sKeep_toNat (h : a.Narrows n) : a.sKeepWidth.toNat = n * a.mKeepWidth.toNat := by
  rw [h.sKeep, Int.toNat_mul (by omega) h.mKeep_pos.le, Int.toNat_natCast]

theorem mAxis_eq (h : a.Narrows n) (m : a.MBeat q) :
    mAxis m = { m with side := m.side.enabled } := by
  rw [mAxis, if_pos h.mKeepEnable]

theorem shifted_eq (h : a.Narrows n) (b : a.SBeat q) : shifted b =
    { b with tdata := b.tdata >>> a.mDataWidth.toNat, tkeep := b.tkeep >>> a.mKeepWidth.toNat } := by
  rw [shifted, h.downsize_eq]

theorem hasMore_eq (h : a.Narrows n) (b : a.SBeat q) :
    hasMore b = (b.tkeep >>> a.mKeepWidth.toNat != 0) := by
  rw [hasMore, h.downsize_eq]

end Narrows

/-! ### The segments of a beat -/

/-- The beats that are made of a beat of at most `k` segments. -/
def cut : ℕ → a.SBeat q → List (a.MBeat q)
  | 0, _ => []
  | k + 1, b => lowest b :: if hasMore b then cut k (shifted b) else []

/-- Nothing is kept from segment `k` on. -/
def Within (k : ℕ) (b : a.SBeat q) : Prop := b.tkeep >>> (k * a.mKeepWidth.toNat) = 0

theorem Narrows.within (h : a.Narrows n) (b : a.SBeat q) : Within n b := by
  have hle : a.sKeepWidth.toNat ≤ n * a.mKeepWidth.toNat := h.sKeep_toNat.le
  apply BitVec.eq_of_getLsbD_eq
  intro i _
  rw [BitVec.getLsbD_ushiftRight, BitVec.getLsbD_of_ge _ _ (by omega)]
  exact BitVec.getLsbD_zero.symm

theorem Within.shifted (h : a.Narrows n) (hb : Within (k + 1) b) : Within k (shifted b) := by
  rw [Within, Nat.succ_mul, Nat.add_comm, BitVec.shiftRight_add] at hb
  rw [Within, h.shifted_eq]
  exact hb

theorem hasMore_of_within_one (h : a.Narrows n) (hb : Within 1 b) : hasMore b = false := by
  rw [Within, Nat.one_mul] at hb
  rw [h.hasMore_eq, hb]
  exact bne_self_eq_false _

/-- More segments than there are do not matter. -/
theorem cut_succ (h : a.Narrows n) (hk : 0 < k) (hb : Within k b) : cut (k + 1) b = cut k b := by
  induction k generalizing b with
  | zero => exact absurd hk (Nat.lt_irrefl 0)
  | succ k ih =>
    show lowest b :: (if hasMore b then cut (k + 1) (shifted b) else [])
      = lowest b :: if hasMore b then cut k (shifted b) else []
    cases k with
    | zero => rw [hasMore_of_within_one h hb]; rfl
    | succ k => rw [ih (Nat.succ_pos k) (hb.shifted h)]

/-- The beats that are left once the lowest segment is given out. -/
theorem cut_eq (h : a.Narrows n) (b : a.SBeat q) :
    cut n b = lowest b :: if hasMore b then cut n (shifted b) else [] := by
  have hn := h.two_le
  obtain ⟨k, rfl⟩ : ∃ k, n = k + 2 := ⟨n - 2, by omega⟩
  have hstop : cut (k + 2) (shifted b) = cut (k + 1) (shifted b) :=
    cut_succ h (Nat.succ_pos k) ((h.within b).shifted h)
  rw [hstop, cut]

/-- What the lowest segment carries. -/
theorem kept_lowest (hc : a.mDataWidth.toNat = a.mKeepWidth.toNat * c) :
    kept c a.mKeepWidth.toNat (lowest b).tdata (lowest b).tkeep
      = kept c a.mKeepWidth.toNat b.tdata b.tkeep := by
  apply kept_congr
  · intro j hj _
    apply slice_setWidth
    rw [hc]
    exact Nat.mul_le_mul_right c hj
  · intro j hj
    show (b.tkeep.setWidth _).getLsbD j = _
    rw [BitVec.getLsbD_setWidth, decide_eq_true hj, Bool.true_and]

/-- The beats made of a beat carry what it carries. -/
theorem carried_cut (h : a.Narrows n) (hc : a.mDataWidth.toNat = a.mKeepWidth.toNat * c)
    (hk : 0 < k) (hb : Within k b) : (cut k b).flatMap (fun m => (mAxis m).carried c)
      = (kept c (k * a.mKeepWidth.toNat) b.tdata b.tkeep).map some
        ++ if b.tlast then [none] else [] := by
  induction k generalizing b with
  | zero => exact absurd hk (Nat.lt_irrefl 0)
  | succ k ih =>
    have hhead : (mAxis (lowest b)).carried c
        = (kept c a.mKeepWidth.toNat b.tdata b.tkeep).map some
          ++ if !hasMore b && b.tlast then [none] else [] := by
      rw [h.mAxis_eq, ← kept_lowest hc]
      rfl
    have hshift : a.mKeepWidth.toNat * c = a.mDataWidth.toNat := hc.symm
    rw [cut, List.flatMap_cons, hhead, kept_mul_succ', hshift]
    cases hm : hasMore b with
    | false =>
      have hz : b.tkeep >>> a.mKeepWidth.toNat = 0 := by
        rw [h.hasMore_eq] at hm
        simpa using hm
      rw [hz, kept_zero]
      simp
    | true =>
      cases k with
      | zero =>
        rw [hasMore_of_within_one h hb] at hm
        cases hm
      | succ k =>
        rw [if_pos rfl, ih (Nat.succ_pos k) (hb.shifted h), h.shifted_eq]
        simp

theorem carried_eq_cut (h : a.Narrows n) (hc : a.mDataWidth.toNat = a.mKeepWidth.toNat * c)
    (b : a.SBeat q) : b.carried c = ((cut n b).map mAxis).flatMap (AxisBeat.carried c) := by
  have hn := h.two_le
  have hwidth : kept c a.sKeepWidth.toNat b.tdata b.tkeep
      = kept c (n * a.mKeepWidth.toNat) b.tdata b.tkeep :=
    congrArg (fun m => kept c m _ _) h.sKeep_toNat
  rw [AxisBeat.carried, hwidth, ← carried_cut h hc (by omega) (h.within b), List.flatMap_map]

/-- Segment `j` of a beat that is given out in `m` beats. -/
def segment (m : ℕ) (b : a.SBeat q) (j : ℕ) : a.MBeat q where
  tdata := slice a.mDataWidth.toNat j b.tdata
  tkeep := slice a.mKeepWidth.toNat j b.tkeep
  tlast := j + 1 == m && b.tlast
  side := b.side

theorem slice_of_not_hasMore (h : a.Narrows n) (hm : hasMore b = false) {j : ℕ} (hj : 1 ≤ j) :
    slice a.mKeepWidth.toNat j b.tkeep = 0 := by
  obtain ⟨j, rfl⟩ := Nat.exists_eq_add_of_le' hj
  have hz : b.tkeep >>> a.mKeepWidth.toNat = 0 := by
    rw [h.hasMore_eq] at hm
    simpa using hm
  rw [← slice_ushiftRight, hz, slice_zero]

/-- A beat is given out up to the last segment in which something is kept. -/
structure UpTo (b : a.SBeat q) (m : ℕ) : Prop where
  pos : 1 ≤ m
  above : ∀ j, m ≤ j → slice a.mKeepWidth.toNat j b.tkeep = 0
  top : 1 < m → slice a.mKeepWidth.toNat (m - 1) b.tkeep ≠ 0

theorem UpTo.succ (h : a.Narrows n) (hm : hasMore b = true) {m : ℕ} (hu : UpTo (shifted b) m) :
    UpTo b (m + 1) := by
  have hlane : ∀ j, slice a.mKeepWidth.toNat j (shifted b).tkeep
      = slice a.mKeepWidth.toNat (j + 1) b.tkeep := by
    intro j
    rw [h.shifted_eq]
    exact slice_ushiftRight
  refine ⟨Nat.succ_le_succ (Nat.zero_le m), ?_, ?_⟩
  · intro j hj
    obtain ⟨j, rfl⟩ := Nat.exists_eq_add_of_le' (Nat.le_of_add_left_le hj)
    rw [← hlane]
    exact hu.above j (Nat.le_of_succ_le_succ hj)
  · intro _
    rw [Nat.add_sub_cancel]
    obtain ⟨m, rfl⟩ := Nat.exists_eq_add_of_le' hu.pos
    cases m with
    | succ m =>
      rw [← hlane]
      exact hu.top (Nat.succ_lt_succ (Nat.succ_pos m))
    | zero =>
      -- only the lowest of the other segments can have what is left
      intro hz
      have hzero : (shifted b).tkeep = 0 := by
        apply eq_zero_of_slice (w := a.mKeepWidth.toNat) (Int.pos_iff_toNat_pos.mp h.mKeep_pos)
        intro j
        cases j with
        | zero => rw [hlane, hz]
        | succ j => exact hu.above _ (Nat.succ_le_succ (Nat.zero_le j))
      rw [h.shifted_eq] at hzero
      rw [h.hasMore_eq, show b.tkeep >>> a.mKeepWidth.toNat = 0 from hzero,
        bne_self_eq_false] at hm
      cases hm

theorem lowest_eq_segment (m : ℕ) (hl : (!hasMore b) = (1 == m)) : lowest b = segment m b 0 := by
  rw [lowest, segment, hl, Nat.zero_add]
  have hdata : b.tdata.setWidth a.mDataWidth.toNat = slice a.mDataWidth.toNat 0 b.tdata := by
    apply BitVec.eq_of_getLsbD_eq
    intro i hi
    rw [getLsbD_slice hi, Nat.zero_mul, Nat.zero_add]
    simp [hi]
  have hkeep : b.tkeep.setWidth a.mKeepWidth.toNat = slice a.mKeepWidth.toNat 0 b.tkeep := by
    apply BitVec.eq_of_getLsbD_eq
    intro i hi
    rw [getLsbD_slice hi, Nat.zero_mul, Nat.zero_add]
    simp [hi]
  rw [hdata, hkeep]

theorem segment_shifted (h : a.Narrows n) (m j : ℕ) :
    segment m (shifted b) j = segment (m + 1) b (j + 1) := by
  have hend : (j + 1 == m) = (j + 1 + 1 == m + 1) := by
    rw [Bool.eq_iff_iff, beq_iff_eq, beq_iff_eq]
    omega
  rw [segment, h.shifted_eq, segment, ← slice_ushiftRight, ← slice_ushiftRight, hend]

/-- **A beat is cut into its segments**, the last of which ends its packet. -/
theorem cut_eq_segments (h : a.Narrows n) (hk : 0 < k) (hb : Within k b) :
    ∃ m ≤ k, UpTo b m ∧ cut k b = (List.range m).map (segment m b) := by
  induction k generalizing b with
  | zero => exact absurd hk (Nat.lt_irrefl 0)
  | succ k ih =>
    cases hm : hasMore b with
    | false =>
      refine ⟨1, Nat.succ_le_succ (Nat.zero_le k), ⟨le_rfl, ?_, ?_⟩, ?_⟩
      · exact fun j hj => slice_of_not_hasMore h hm hj
      · exact fun h1 => absurd h1 (Nat.lt_irrefl 1)
      · rw [cut, hm, lowest_eq_segment 1 (by rw [hm]; rfl)]
        rfl
    | true =>
      cases k with
      | zero =>
        rw [hasMore_of_within_one h hb] at hm
        cases hm
      | succ k =>
        obtain ⟨m, hle, hu, heq⟩ := ih (Nat.succ_pos k) (hb.shifted h)
        refine ⟨m + 1, Nat.succ_le_succ hle, hu.succ h hm, ?_⟩
        have hpos := hu.pos
        have hl : (!hasMore b) = (1 == m + 1) := by
          rw [hm, eq_comm, Bool.not_true, beq_eq_false_iff_ne]
          omega
        rw [cut, hm, if_pos rfl, heq, lowest_eq_segment (m + 1) hl, List.range_succ_eq_map,
          List.map_cons, List.map_map]
        congr 1
        apply List.map_congr_left
        intro j _
        exact segment_shifted h m j

end AxisAdapter

namespace Downsize

open AxisAdapter

variable {a : AxisAdapter} {q : SideParams} {n c : ℕ} {r : Downsize a q} {i : StageIn (a.SBeat q)}

/-! ### A cycle -/

/-- What is given out next: the output register, then the beat of the other one. -/
def held (n : ℕ) (r : Downsize a q) : List (a.MBeat q) :=
  (if r.mValid then [mAxis r.m] else []) ++ if r.sValid then (cut n r.s).map mAxis else []

/-- A beat is kept aside only while another one is offered. -/
def Inv (r : Downsize a q) : Prop := r.sValid = true → r.mValid = true

/-- The beat that goes through the output register. -/
def incoming (r : Downsize a q) (i : StageIn (a.SBeat q)) : Option (a.SBeat q) :=
  if r.sValid || i.offer.valid then some (r.front i) else none

theorem incoming_eq : (if r.sValid then [r.s] else []) ++ ((downsize a q).taken r i).toList
    = (r.incoming i).toList := by
  cases hsv : r.sValid <;> cases hv : i.offer.valid <;>
    simp [Stage.taken, downsize, sTready, incoming, front, hsv, hv]

theorem given_of_free (hg : r.free i = true) : ((downsize a q).given r i).toList
    = if r.mValid then [mAxis r.m] else [] := by
  cases hv : r.mValid with
  | false => simp [Stage.given, downsize, hv]
  | true =>
    have hr : i.ready = true := by simpa [free, hv] using hg
    simp [Stage.given, downsize, hv, hr]

theorem step_of_incoming (hg : r.free i = true) {b : a.SBeat q} (hb : r.incoming i = some b) :
    r.step i = ⟨shifted b, hasMore b, lowest b, true⟩ := by
  rw [incoming] at hb
  split at hb
  · next hv =>
    have hbusy : (r.sValid || (i.offer.valid && r.sTready)) = true := by
      cases hsv : r.sValid <;> simp_all [sTready]
    rw [step, if_pos hg, if_pos hbusy, Option.some.inj hb]
  · cases hb

theorem step_of_idle (hg : r.free i = true) (hb : r.incoming i = none) :
    r.sValid = false ∧ i.offer.valid = false ∧
      r.step i = { r with m := { lowest (r.front i) with tlast := false }, mValid := false } := by
  rw [incoming] at hb
  split at hb
  · cases hb
  · next hv =>
    have hno : r.sValid = false ∧ i.offer.valid = false := by simpa using hv
    refine ⟨hno.1, hno.2, ?_⟩
    rw [step, if_pos hg, if_neg (by simp [hno.1, hno.2])]

theorem step_of_stall (hg : ¬r.free i = true) : r.mValid = true ∧ i.ready = false ∧
    r.step i = if i.offer.valid && r.sTready then { r with s := i.offer.beat, sValid := true }
      else r := by
  refine ⟨?_, ?_, by rw [step, if_neg hg]⟩ <;> simp_all [free]

theorem Inv.step (hi : r.Inv) (i : StageIn (a.SBeat q)) : (r.step i).Inv := by
  by_cases hg : r.free i = true
  · cases hb : r.incoming i with
    | none =>
      obtain ⟨hsv, _, hs⟩ := step_of_idle hg hb
      rw [hs]
      exact fun hv => absurd hv (by simp [hsv])
    | some b =>
      rw [step_of_incoming hg hb]
      exact fun _ => rfl
  · obtain ⟨hv, _, hs⟩ := step_of_stall hg
    rw [hs]
    split
    · exact fun _ => hv
    · exact hi

/-- A cycle moves the segments of the beats. -/
theorem held_step (h : a.Narrows n) : r.held n
      ++ ((downsize a q).taken r i).toList.flatMap (fun b => (cut n b).map mAxis)
    = ((downsize a q).given r i).toList.flatMap (fun m => [m]) ++ (r.step i).held n := by
  by_cases hg : r.free i = true
  · have hskid : (if r.sValid then (cut n r.s).map mAxis else [])
        = (if r.sValid then [r.s] else []).flatMap (fun b => (cut n b).map mAxis) := by
      cases r.sValid <;> simp
    rw [held, hskid, List.append_assoc, ← List.flatMap_append, incoming_eq, given_of_free hg,
      List.flatMap_singleton']
    congr 1
    cases hb : r.incoming i with
    | none =>
      obtain ⟨hsv, _, hs⟩ := step_of_idle hg hb
      rw [hs]
      simp [held, hsv]
    | some b =>
      rw [step_of_incoming hg hb, Option.toList_some, List.flatMap_singleton, cut_eq h b]
      cases hasMore b <;> simp [held]
  · obtain ⟨hv, hr, hs⟩ := step_of_stall hg
    have hgive : (downsize a q).given r i = none := by simp [Stage.given, hr]
    rw [hs, hgive]
    cases hsv : r.sValid <;> cases hiv : i.offer.valid <;>
      simp [Stage.taken, downsize, sTready, held, hsv, hiv, hv]

end Downsize

/-! ### Runs -/

section Runs

open AxisAdapter

variable {a : AxisAdapter} {q : SideParams} {n c : ℕ}

/-- The beats given out are the segments of those taken in. -/
def downsizeCuts (q : SideParams) (h : a.Narrows n) :
    (downsize a q).Conserves (fun b => (cut n b).map mAxis) (fun m => [m]) where
  held := Downsize.held n
  Inv := Downsize.Inv
  inv_reset hs := nomatch hs
  inv_step _ i hi := hi.step i
  held_reset := rfl
  moves _ _ _ := Downsize.held_step h

/-- What the beats carry is conserved. -/
def downsizeConserves (q : SideParams) (h : a.Narrows n)
    (hc : a.mDataWidth.toNat = a.mKeepWidth.toNat * c) :
    (downsize a q).Conserves (AxisBeat.carried c) (AxisBeat.carried c) :=
  (downsizeCuts q h).refine (AxisBeat.carried c)
    (carried_eq_cut h hc) fun _ => (List.flatMap_singleton ..).symm

theorem downsize_steady (P : Downsize a q → Prop) : (downsize a q).Steady P := by
  intro r i o' _ _ hv hr
  have hg : ¬r.free i = true := by
    have hv' : r.mValid = true := hv
    simp [Downsize.free, hv', hr]
  obtain ⟨_, _, hs⟩ := Downsize.step_of_stall hg
  show (downsize a q).offer (Downsize.step r i) o' = _
  rw [hs]
  cases i.offer.valid && Downsize.sTready r <;> rfl

/-- What is left of the beat that is kept aside. -/
def Downsize.left (n : ℕ) (r : Downsize a q) : ℕ := if r.sValid then (cut n r.s).length else 0

theorem Downsize.left_ne_zero (h : a.Narrows n) {r : Downsize a q} (hs : r.sValid = true) :
    r.left n ≠ 0 := by
  rw [left, if_pos hs, cut_eq h]
  exact Nat.succ_ne_zero _

/-- Nothing is taken in meanwhile, and a ready receiver makes it shorter. -/
theorem Downsize.left_step (h : a.Narrows n) {r : Downsize a q} {i : StageIn (a.SBeat q)}
    (hl : r.left n ≠ 0) : (r.step i).left n ≤ r.left n ∧
      (i.ready = true → (r.step i).left n < r.left n) := by
  have hs : r.sValid = true := by
    by_contra hs
    exact hl (if_neg hs)
  have hleft : r.left n = (cut n r.s).length := if_pos hs
  by_cases hg : r.free i = true
  · have hb : r.incoming i = some r.s := by simp [Downsize.incoming, Downsize.front, hs]
    have hlt : (r.step i).left n < r.left n := by
      rw [hleft, Downsize.step_of_incoming hg hb, cut_eq h]
      cases hm : hasMore r.s <;> simp [Downsize.left]
    exact ⟨hlt.le, fun _ => hlt⟩
  · obtain ⟨_, hr, hst⟩ := Downsize.step_of_stall hg
    have hstay : r.step i = r := by
      rw [hst]
      simp [Downsize.sTready, hs]
    rw [hstay]
    exact ⟨le_rfl, fun hr' => by simp [hr] at hr'⟩

theorem downsize_lively (q : SideParams) (h : a.Narrows n) : (downsize a q).Lively := by
  intro v hv t
  have hstep : ∀ m, (downsize a q).machine.resettable.state v (m + 1)
      = ((downsize a q).machine.resettable.state v m).step (v m).val :=
    fun m => Machine.resettable_state_succ_of_rstn (hv.rstn m)
  obtain ⟨m, hm, hzero, _⟩ := @runs_down
    (fun m => Downsize.left n ((downsize a q).machine.resettable.state v m))
    (fun m hl => by rw [hstep]; exact (Downsize.left_step h hl).1)
    (fun m => by
      obtain ⟨k, hk, hr⟩ := hv.ready m
      exact ⟨k, hk, fun hl => by rw [hstep]; exact (Downsize.left_step h hl).2 hr⟩) t
  refine ⟨m, hm, ?_⟩
  show (!((downsize a q).machine.resettable.state v m).sValid) = true
  rw [Bool.not_eq_true']
  by_contra hs
  exact Downsize.left_ne_zero h (Bool.eq_true_of_not_eq_false hs) hzero

/-- **Everything that has been taken in comes out.** -/
theorem downsize_gives_all (q : SideParams) (h : a.Narrows n)
    {v : ℕ → WithRstn (StageIn (a.SBeat q))} (hv : Stage.Flows v) (t : ℕ) :
    ∃ m, t ≤ m ∧ ((downsize a q).machine.sinceReset v (downsize a q).taken t).flatMap
        (fun b => (cut n b).map mAxis)
      <+: (downsize a q).machine.sinceReset v (downsize a q).given m := by
  have hbal := fun m => (downsizeCuts q h).balance v m
  simp only [List.flatMap_singleton'] at hbal
  have hmore : ∀ m, t ≤ m → ((downsize a q).machine.sinceReset v (downsize a q).taken t).flatMap
      (fun b => (cut n b).map mAxis) <+:
        (downsize a q).machine.sinceReset v (downsize a q).given m
          ++ (downsizeCuts q h).held ((downsize a q).machine.resettable.state v m) := by
    intro m hm
    rw [← hbal m]
    exact (Machine.sinceReset_mono hv.rstn _ hm).flatMap _
  generalize ((downsize a q).machine.sinceReset v (downsize a q).taken t).flatMap
    (fun b => (cut n b).map mAxis) = all at hmore ⊢
  -- by induction on the number of beats that have not come out
  have hgo : ∀ d m, t ≤ m →
      all.length - ((downsize a q).machine.sinceReset v (downsize a q).given m).length = d →
      ∃ m', t ≤ m' ∧ all <+: (downsize a q).machine.sinceReset v (downsize a q).given m' := by
    intro d
    induction d with
    | zero =>
      intro m hm hd
      exact ⟨m, hm, List.prefix_of_prefix_length_le (hmore m hm) (List.prefix_append _ _) (by omega)⟩
    | succ d ih =>
      intro m hm hd
      have hlen := (hmore m hm).length_le
      rw [List.length_append] at hlen
      have hval : ((downsize a q).machine.resettable.state v m).mValid = true := by
        by_contra hoff
        have hskid : ¬((downsize a q).machine.resettable.state v m).sValid = true :=
          fun hs => hoff ((downsizeCuts q h).inv v m hs)
        have hnone : ((downsizeCuts q h).held ((downsize a q).machine.resettable.state v m))
            = [] := by
          show Downsize.held n _ = []
          simp [Downsize.held, hoff, hskid]
        rw [hnone, List.length_nil] at hlen
        omega
      obtain ⟨m', hm', _, hgave⟩ := Stage.exists_given (downsize_steady fun _ => True)
        (fun _ _ _ => rfl) (fun _ => trivial) hv hval
      refine ih (m' + 1) (by omega) ?_
      rw [hgave, List.length_append, List.length_singleton]
      omega
  exact hgo _ t le_rfl rfl

theorem downsize_delivers (q : SideParams) (h : a.Narrows n)
    (hc : a.mDataWidth.toNat = a.mKeepWidth.toNat * c) (Mark : Option (BitVec c) → Prop) :
    (downsize a q).Delivers (AxisBeat.carried c) (AxisBeat.carried c) Mark := by
  intro v hv t p e _ hp
  obtain ⟨m, hm, hall⟩ := downsize_gives_all q h hv t
  refine ⟨m, hm, hp.trans ?_⟩
  have hcut : ∀ b : a.SBeat q, b.carried c
      = ((cut n b).map mAxis).flatMap (AxisBeat.carried c) := carried_eq_cut h hc
  have hfun : (AxisBeat.carried c : a.SBeat q → List (Option (BitVec c)))
      = fun b => ((cut n b).map mAxis).flatMap (AxisBeat.carried c) := funext hcut
  rw [hfun, ← List.flatMap_assoc]
  exact hall.flatMap _

/-- **In every run the segments of the beats taken in come out in order**, each beat up to
the last segment in which something is kept, and if the receiver is ready again and again
all of them come out. -/
theorem downsize_run (q : SideParams) (h : a.Narrows n) (v : ℕ → WithRstn (StageIn (a.SBeat q))) :
    (∀ b : a.SBeat q, ∃ m ≤ n, UpTo b m ∧ cut n b = (List.range m).map (segment m b)) ∧
    (∀ t, ((downsize a q).machine.sinceReset v (downsize a q).taken t).flatMap
        (fun b => (cut n b).map mAxis)
      = (downsize a q).machine.sinceReset v (downsize a q).given t
        ++ Downsize.held n ((downsize a q).machine.resettable.state v t)) ∧
    (Stage.Flows v → ∀ t, ∃ m, t ≤ m ∧
      ((downsize a q).machine.sinceReset v (downsize a q).taken t).flatMap
        (fun b => (cut n b).map mAxis)
      <+: (downsize a q).machine.sinceReset v (downsize a q).given m) := by
  have hn := h.two_le
  refine ⟨fun b => cut_eq_segments h (by omega) (h.within b), ?_, fun hv => downsize_gives_all q h hv⟩
  intro t
  have hbal := (downsizeCuts q h).balance v t
  rw [List.flatMap_singleton'] at hbal
  exact hbal

/-- From words of three bytes to bytes. -/
def threeToByte : AxisAdapter := ⟨24, true, 3, 8, true, 1⟩

/-- A beat with a hole in it and nothing at its top. -/
def holed : ℕ → WithRstn (StageIn (threeToByte.SBeat noSide)) := fun t =>
  ⟨true, ⟨t == 0, ⟨0x332211, 0b010, true, 0, 0, 0⟩⟩, true⟩

theorem holed_downsize_run :
    ((downsize threeToByte noSide).machine.sinceReset holed
        (downsize threeToByte noSide).taken 1).flatMap (fun b => (cut 3 b).map mAxis)
      = (downsize threeToByte noSide).machine.sinceReset holed
          (downsize threeToByte noSide).given 1
        ++ Downsize.held 3 ((downsize threeToByte noSide).machine.resettable.state holed 1) ∧
    ∃ m, 1 ≤ m ∧ ((downsize threeToByte noSide).machine.sinceReset holed
        (downsize threeToByte noSide).taken 1).flatMap (fun b => (cut 3 b).map mAxis)
      <+: (downsize threeToByte noSide).machine.sinceReset holed
        (downsize threeToByte noSide).given m := by
  have hrun := downsize_run noSide (a := threeToByte) (n := 3)
    ⟨by decide, rfl, rfl, Int.one_pos, by decide, rfl, rfl⟩ holed
  exact ⟨hrun.2.1 1, hrun.2.2 ⟨fun _ => rfl, fun t => ⟨t, le_rfl, rfl⟩⟩ 1⟩

end Runs

end AxisSystolic
