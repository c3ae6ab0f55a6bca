import AxisSystolic.Top.Downsize

/-!
# Between any two widths (`alex_axis_adapter_any.sv`)

The streams between the DMA and the array go through `SLAVE_ADAPTER`, which widens them to
the intermediate width, and `MASTER_ADAPTER`, which narrows them.  Either is left out where
its widths are equal.  Together they carry the bytes and the ends of the packets through,
whatever the two widths.
-/

namespace AxisSystolic

open Sync Mem

variable {q : SideParams}

/-- A beat on wires of other widths. -/
def AxisBeat.connect {dw kw dw' kw' : ℕ} (b : AxisBeat dw kw q) : AxisBeat dw' kw' q where
  tdata := b.tdata.setWidth _
  tkeep := b.tkeep.setWidth _
  tlast := b.tlast
  side := b.side

/-- The module `axis_adapter`, with its branches `bypass`, `upsize` and `downsize`. -/
def axisAdapter (a : AxisAdapter) (q : SideParams) : Stage (a.SBeat q) (a.MBeat q) :=
  if a.mByteLanes = a.sByteLanes then Stage.wire fun b => AxisAdapter.mAxis b.connect
  else if a.mByteLanes > a.sByteLanes then upsize a q
  else downsize a q

namespace AdapterAny

variable (p : AdapterAny) (q : SideParams) (d k : ℤ)

abbrev SBeat : Type := AxisBeat p.sDataWidth.toNat p.sKeepWidth.toNat q

abbrev MBeat : Type := AxisBeat p.mDataWidth.toNat p.mKeepWidth.toNat q

/-- From the `s` side to the wires `i_axis_*`. -/
def slave : Stage (p.SBeat q) (AxisBeat d.toNat k.toNat q) :=
  if p.sDataWidth = d then Stage.wire AxisBeat.connect
  else axisAdapter ⟨p.sDataWidth, p.sKeepEnable, p.sKeepWidth, d, true, k⟩ q

/-- From the wires `i_axis_*` to the `m` side. -/
def master : Stage (AxisBeat d.toNat k.toNat q) (p.MBeat q) :=
  if p.mDataWidth = d then Stage.wire AxisBeat.connect
  else axisAdapter ⟨d, true, k, p.mDataWidth, p.mKeepEnable, p.mKeepWidth⟩ q

/-- The module, with the intermediate widths `d` and `k`. -/
def stage : Stage (p.SBeat q) (p.MBeat q) := (p.slave q d k).series (p.master q d k)

end AdapterAny

/-! ### Each adapter -/

/-- The end of a packet. -/
def IsEnd {c : ℕ} (x : Option (BitVec c)) : Prop := x = none

theorem carried_connect {c dw kw dw' kw' : ℕ} (hd : dw = dw') (hk : kw = kw')
    (b : AxisBeat dw kw q) :
    (b.connect : AxisBeat dw' kw' q).carried c = b.carried c := by
  subst hd hk
  simp [AxisBeat.connect, AxisBeat.carried]

theorem Returns.unique {f : ℕ → Option (Option ℤ)} {v w : ℤ} (hv : Returns f v) (hw : Returns f w) :
    v = w := by
  obtain ⟨n, hn⟩ := hv
  obtain ⟨m, hm⟩ := hw
  have heq := (hn (max n m) (le_max_left n m)).symm.trans (hm (max n m) (le_max_right n m))
  exact Option.some.inj (Option.some.inj heq)

namespace AxisAdapter

variable {a : AxisAdapter} {n c : ℕ}

theorem Widens.faithful (h : a.Widens n) (hc : a.sDataWidth.toNat = a.sKeepWidth.toNat * c) :
    (axisAdapter a q).Faithful (AxisBeat.carried c) (AxisBeat.carried c) IsEnd := by
  have hn := h.two_le
  have hs : a.sByteLanes = a.sKeepWidth := if_pos h.sKeepEnable
  have hm : a.mByteLanes = n * a.sKeepWidth := (if_pos h.mKeepEnable).trans h.mKeep
  have hlt : a.sByteLanes < a.mByteLanes := by
    rw [hs, hm]
    exact lt_mul_of_one_lt_left h.sKeep_pos (by omega)
  rw [axisAdapter, if_neg hlt.ne', if_pos hlt]
  exact ⟨⟨upsizeConserves q h hc⟩, upsize_steady _, upsize_lively, upsize_delivers q h hc⟩

theorem Narrows.faithful (h : a.Narrows n) (hc : a.mDataWidth.toNat = a.mKeepWidth.toNat * c) :
    (axisAdapter a q).Faithful (AxisBeat.carried c) (AxisBeat.carried c) IsEnd := by
  have hn := h.two_le
  have hm : a.mByteLanes = a.mKeepWidth := if_pos h.mKeepEnable
  have hs : a.sByteLanes = n * a.mKeepWidth := (if_pos h.sKeepEnable).trans h.sKeep
  have hlt : a.mByteLanes < a.sByteLanes := by
    rw [hs, hm]
    exact lt_mul_of_one_lt_left h.mKeep_pos (by omega)
  rw [axisAdapter, if_neg hlt.ne, if_neg hlt.le.not_gt]
  exact ⟨⟨downsizeConserves q h hc⟩, downsize_steady _, downsize_lively q h,
    downsize_delivers q h hc IsEnd⟩

end AxisAdapter

namespace AdapterAny

variable {p : AdapterAny} {n : ℤ}

theorem sData_toNat (h : p.WholeBytes) : p.sDataWidth.toNat = p.sKeepWidth.toNat * 8 := by
  have := h.sKeep
  have := h.sPos
  omega

theorem mData_toNat (h : p.WholeBytes) : p.mDataWidth.toNat = p.mKeepWidth.toNat * 8 := by
  have := h.mKeep
  have := h.mPos
  omega

theorem slave_faithful (h : p.WholeBytes) (hen : p.sKeepEnable = true) (hn : 0 < n) :
    (p.slave q (n * p.sDataWidth) (n * p.sKeepWidth)).Faithful (AxisBeat.carried 8)
      (AxisBeat.carried 8) IsEnd := by
  have hs := h.sKeep
  have hpos := h.sPos
  rw [slave]
  split
  · next heq =>
    have h1 : n = 1 := mul_right_cancel₀ hpos.ne' (by rw [← heq, one_mul])
    subst h1
    exact .wire (carried_connect (by rw [one_mul]) (by rw [one_mul]))
  · next hne =>
    have h1 : n ≠ 1 := fun h1 => hne (by rw [h1, one_mul])
    have hcast : ((n.toNat : ℕ) : ℤ) = n := Int.toNat_of_nonneg hn.le
    refine AxisAdapter.Widens.faithful (n := n.toNat) ⟨by omega, hen, rfl, ?_, hpos.le, ?_, ?_⟩
      (p.sData_toNat h)
    · show 0 < p.sKeepWidth
      omega
    · rw [hcast]
    · rw [hcast]

theorem master_faithful (h : p.WholeBytes) (hen : p.mKeepEnable = true) (hn : 0 < n) :
    (p.master q (n * p.mDataWidth) (n * p.mKeepWidth)).Faithful (AxisBeat.carried 8)
      (AxisBeat.carried 8) IsEnd := by
  have hm := h.mKeep
  have hpos := h.mPos
  rw [master]
  split
  · next heq =>
    have h1 : n = 1 := mul_right_cancel₀ hpos.ne' (by rw [← heq, one_mul])
    subst h1
    exact .wire (carried_connect (by rw [one_mul]) (by rw [one_mul]))
  · next hne =>
    have h1 : n ≠ 1 := fun h1 => hne (by rw [h1, one_mul])
    have hcast : ((n.toNat : ℕ) : ℤ) = n := Int.toNat_of_nonneg hn.le
    refine AxisAdapter.Narrows.faithful (n := n.toNat) ⟨by omega, rfl, hen, ?_, hpos.le, ?_, ?_⟩
      (p.mData_toNat h)
    · show 0 < p.mKeepWidth
      omega
    · rw [hcast]
    · rw [hcast]

/-- Both adapters together. -/
theorem stage_faithful (h : p.WholeBytes) (hfit : p.sDataWidth * p.mDataWidth < 2 ^ 31)
    (hs : p.sKeepEnable = true) (hm : p.mKeepEnable = true) {d k : ℤ}
    (hd : Returns p.iDataWidth d) (hk : Returns p.iKeepWidth k) :
    (p.stage q d k).Faithful (AxisBeat.carried 8) (AxisBeat.carried 8) IsEnd := by
  obtain ⟨k', i, j, hi, hj, hki, hkj, hdata, hkeep⟩ := p.widths h hfit
  obtain rfl := hk.unique hkeep
  obtain rfl := hd.unique hdata
  have hdi : 8 * k = i * p.sDataWidth := by rw [hki, h.sKeep, mul_left_comm]
  have hdj : 8 * k = j * p.mDataWidth := by rw [hkj, h.mKeep, mul_left_comm]
  have hslave := p.slave_faithful (q := q) h hs hi
  have hmaster := p.master_faithful (q := q) h hm hj
  rw [← hdi, ← hki] at hslave
  rw [← hdj, ← hkj] at hmaster
  exact hslave.series hmaster

end AdapterAny

/-- **Between any two widths the bytes and the ends of the packets come out as they went
in**: always a first part of them, and in the end every packet whose last beat has been
taken in.  What is offered stays until it is taken. -/
theorem adapter_any_run (p : AdapterAny) (h : p.WholeBytes)
    (hfit : p.sDataWidth * p.mDataWidth < 2 ^ 31) (hs : p.sKeepEnable = true)
    (hm : p.mKeepEnable = true) {d k : ℤ} (hd : Returns p.iDataWidth d)
    (hk : Returns p.iKeepWidth k) (q : SideParams) (v : ℕ → WithRstn (StageIn (p.SBeat q))) :
    let S := p.stage q d k
    let s := S.machine.resettable.state v
    let took := fun t => (S.machine.sinceReset v S.taken t).flatMap (AxisBeat.carried 8)
    let gave := fun t => (S.machine.sinceReset v S.given t).flatMap (AxisBeat.carried 8)
    (∀ t, gave t <+: took t) ∧
    (S.SenderHolds v → ∀ t, (v t).rstn = true → (S.offer (s t) (v t).val.offer).valid = true →
      (v t).val.ready = false →
      S.offer (s (t + 1)) (v (t + 1)).val.offer = S.offer (s t) (v t).val.offer) ∧
    (Stage.Flows v → (∀ t, ∃ m, t ≤ m ∧ S.ready (s m) (v m).val.ready = true) ∧
      ∀ t b, b ++ [none] <+: took t → ∃ m, t ≤ m ∧ b ++ [none] <+: gave m) := by
  have hS := p.stage_faithful (q := q) h hfit hs hm hd hk
  refine ⟨fun t => hS.given_prefix v t, ?_, ?_⟩
  · intro hv t hr ho hno
    exact hS.steady.run (fun _ => trivial) hv hr ho hno
  · intro hv
    exact ⟨hS.lively v hv, fun t b hb => hS.delivers v hv t b none rfl hb⟩

/-- A packet of two words of four bytes, through the adapter to words of three. -/
def twoWords : ℕ → WithRstn (StageIn (fourToThree.SBeat noSide)) := fun t =>
  ⟨true, ⟨t < 2, ⟨0x44332211, 0b1111, t == 1, 0, 0, 0⟩⟩, true⟩

theorem twoWords_run : let S := fourToThree.stage noSide 96 12
    ∃ m, 3 ≤ m ∧ [some 0x11, some 0x22, some 0x33, some 0x44,
        some 0x11, some 0x22, some 0x33, some 0x44] ++ [none] <+:
      (S.machine.sinceReset twoWords S.given m).flatMap (AxisBeat.carried 8) := by
  have hd : Returns fourToThree.iDataWidth 96 :=
    lcm_returns_lcm (x := 32) (y := 24) (by decide) (by decide) (by decide)
  have hk : Returns fourToThree.iKeepWidth 12 :=
    lcm_returns_lcm (x := 4) (y := 3) (by decide) (by decide) (by decide)
  have hrun := adapter_any_run fourToThree ⟨by decide, by decide, by decide, by decide⟩
    (by decide) rfl rfl hd hk noSide twoWords
  refine (hrun.2.2 ⟨fun _ => rfl, fun t => ⟨t, le_rfl, rfl⟩⟩).2 3 _ ?_
  decide

end AxisSystolic
