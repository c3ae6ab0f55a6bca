import AxisSystolic.Engine.WriteFrame

/-!
# The shift of the write engine

The beats of a frame come one by one, and the last one is saved (`Saves`).  The word that the
shift makes of it and the one that comes has the next bytes of the frame in its lanes
(`Saves.window`).  What is strobed of them is what the descriptor has to write there
(`Emits.lanes_eq`), if the frame suits the descriptor.
-/

namespace AxisSystolic

open Mem

variable {p : AxiDmaParams}

/-- The last of the beats ends the frame. -/
def frameEnded (fr : List (WrAxis p)) : Bool := fr.getLast?.any fun b => b.tlast

theorem frameEnded_append (fr : List (WrAxis p)) (b : WrAxis p) :
    frameEnded (fr ++ [b]) = b.tlast := by
  simp [frameEnded]

/-- Beats of one frame, all but the last of which are full. -/
structure Frame (fr : List (WrAxis p)) : Prop where
  whole : ∀ b ∈ fr, WrAxis.Whole b
  more : ∀ b ∈ fr.dropLast, b.tlast = false

namespace Frame

variable {fr : List (WrAxis p)} {b : WrAxis p}

theorem nil : Frame (p := p) [] := ⟨nofun, nofun⟩

theorem all_more (h : Frame fr) (he : frameEnded fr = false) : ∀ b ∈ fr, b.tlast = false := by
  rcases List.eq_nil_or_concat fr with rfl | ⟨init, c, rfl⟩
  · exact nofun
  · intro b hb
    have hmore := h.more
    rw [List.concat_eq_append] at hb hmore he
    rw [List.dropLast_concat] at hmore
    rw [frameEnded_append] at he
    rcases List.mem_append.mp hb with hb | hb
    · exact hmore b hb
    · rw [List.mem_singleton.mp hb]
      exact he

theorem append (h : Frame fr) (he : frameEnded fr = false) (hb : WrAxis.Whole b) :
    Frame (fr ++ [b]) := by
  refine ⟨?_, ?_⟩
  · intro c hc
    rcases List.mem_append.mp hc with hc | hc
    · exact h.whole c hc
    · rw [List.mem_singleton.mp hc]
      exact hb
  · rw [List.dropLast_concat]
    exact h.all_more he

theorem length_bytes (h : Frame fr) (he : frameEnded fr = false) :
    (frameBytes fr).length = fr.length * p.strbWidth :=
  length_frameBytes h.whole (h.all_more he)

/-- The beats before the last one are full. -/
theorem length_init (h : Frame (fr ++ [b])) :
    (frameBytes fr).length = fr.length * p.strbWidth := by
  refine length_frameBytes (fun c hc => h.whole c (List.mem_append_left _ hc)) ?_
  have := h.more
  rwa [List.dropLast_concat] at this

theorem whole_last (h : Frame (fr ++ [b])) : WrAxis.Whole b :=
  h.whole b (List.mem_append_right _ (List.mem_singleton_self b))

theorem length_append (h : Frame (fr ++ [b])) : (frameBytes (fr ++ [b])).length
    = fr.length * p.strbWidth + (WrAxis.bytes b).length := by
  rw [frameBytes_append, frameBytes_singleton, List.length_append, h.length_init]

/-- A byte of the last beat. -/
theorem getElem?_append (h : Frame (fr ++ [b])) (y : ℕ) :
    (frameBytes (fr ++ [b]))[fr.length * p.strbWidth + y]? = (WrAxis.bytes b)[y]? := by
  rw [frameBytes_append, frameBytes_singleton,
    List.getElem?_append_right (by rw [h.length_init]; exact Nat.le_add_right _ _), h.length_init,
    Nat.add_sub_cancel_left]

theorem length_pos (h : Frame fr) (hne : fr ≠ []) : 0 < (frameBytes fr).length := by
  rcases List.eq_nil_or_concat fr with rfl | ⟨init, c, rfl⟩
  · exact absurd rfl hne
  · rw [List.concat_eq_append] at h ⊢
    rw [h.length_append]
    exact Nat.lt_of_lt_of_le h.whole_last.length_pos (Nat.le_add_left _ _)

theorem length_le (h : Frame fr) : (frameBytes fr).length ≤ fr.length * p.strbWidth := by
  rcases List.eq_nil_or_concat fr with rfl | ⟨init, c, rfl⟩
  · exact Nat.zero_le _
  · rw [List.concat_eq_append] at h ⊢
    have := h.whole_last.length_le
    rw [h.length_append, List.length_append, List.length_singleton, Nat.succ_mul]
    omega

end Frame

/-- All beats of one frame. -/
structure Complete (fr : List (WrAxis p)) : Prop extends Frame fr where
  ended : frameEnded fr = true

namespace Complete

variable {fr fr' : List (WrAxis p)}

theorem ne_nil (h : Complete fr) : fr ≠ [] := by
  rintro rfl
  exact absurd h.ended Bool.false_ne_true

/-- Nothing of a frame comes after its end. -/
theorem eq_of_le (h : Complete fr) (h' : Frame fr') (hle : fr <+: fr') : fr = fr' := by
  obtain ⟨more, rfl⟩ := hle
  rcases List.eq_nil_or_concat more with rfl | ⟨init, c, rfl⟩
  · exact (List.append_nil fr).symm
  · exfalso
    obtain ⟨pre, b, rfl⟩ : ∃ pre b, fr = pre ++ [b] :=
      ⟨fr.dropLast, fr.getLast h.ne_nil, (List.dropLast_append_getLast h.ne_nil).symm⟩
    have hmore := h'.more b
    rw [List.concat_eq_append, ← List.append_assoc, List.dropLast_concat] at hmore
    have hended := h.ended
    rw [frameEnded_append, hmore (by simp)] at hended
    exact Bool.false_ne_true hended

/-- What begins a frame with what follows it begins the frame. -/
theorem le_of_le_append (h : Complete fr) (h' : Frame fr') {more : List (WrAxis p)}
    (hle : fr' <+: fr ++ more) : fr' <+: fr := by
  rcases List.prefix_or_prefix_of_prefix hle (List.prefix_append fr more) with hle' | hge
  · exact hle'
  · exact h.eq_of_le h' hge ▸ List.prefix_refl _

end Complete

/-- If some frames and a part of one begin a stream of frames, they are its first ones, and
the part begins the next one. -/
theorem split_frames {done frs : List (List (WrAxis p))} {fr : List (WrAxis p)}
    (hdone : ∀ f ∈ done, Complete f) (hfrs : ∀ f ∈ frs, Complete f) (hfr : Frame fr)
    (h : done.flatten ++ fr <+: frs.flatten) :
    ∃ rest, frs = done ++ rest ∧ fr <+: rest.headD [] := by
  induction done generalizing frs with
  | nil =>
    refine ⟨frs, rfl, ?_⟩
    cases frs with
    | nil => exact h
    | cons f frs => exact (hfrs f List.mem_cons_self).le_of_le_append hfr h
  | cons d done ih =>
    have hd := hdone d List.mem_cons_self
    rw [List.flatten_cons, List.append_assoc] at h
    cases frs with
    | nil =>
      have hnil := List.prefix_nil.mp ((List.prefix_append d _).trans h)
      exact absurd hnil hd.ne_nil
    | cons f frs =>
      have hf := hfrs f List.mem_cons_self
      rw [List.flatten_cons] at h
      obtain rfl : d = f := hd.eq_of_le hf.toFrame
        (hf.le_of_le_append hd.toFrame ((List.prefix_append d _).trans h))
      rw [List.prefix_append_right_inj] at h
      obtain ⟨rest, rfl, hhead⟩ := ih (fun x hx => hdone x (List.mem_cons_of_mem _ hx))
        (fun x hx => hfrs x (List.mem_cons_of_mem _ hx)) h
      exact ⟨rest, rfl, hhead⟩

namespace WrControl

variable {s : WrControl p} {i : WrControlIn p} {d : WrDesc p} {fr : List (WrAxis p)}

/-- The beats `fr` of the frame have come, and the shift has what it needs of them. -/
structure Saves (d : WrDesc p) (fr : List (WrAxis p)) (s : WrControl p) : Prop where
  frame : Frame fr
  offset : s.offset.toNat = d.off
  zero : s.zeroOffset = decide (d.off = 0)
  extra : s.extraCycle = frameEnded fr
  empty : fr = [] → s.saveKeep = 0
  save : ∀ b ∈ fr.getLast?,
    s.saveData = b.tdata ∧ s.saveKeep = b.tkeep ∧ s.saveLast = b.tlast
  left : frameEnded fr = true → fr.length * p.strbWidth < (frameBytes fr).length + d.off

/-- The word that the shift makes is word `k` of the bytes `l`. -/
structure Window (d : WrDesc p) (k : ℕ) (l : List (BitVec 8)) (s : WrControl p)
    (i : WrControlIn p) : Prop where
  keep : ∀ j < p.strbWidth, (s.shiftTkeep i).getLsbD j
    = decide (d.off ≤ k * p.strbWidth + j ∧ k * p.strbWidth + j < d.off + l.length)
  data : ∀ j < p.strbWidth, d.off ≤ k * p.strbWidth + j →
    k * p.strbWidth + j < d.off + l.length →
      l[k * p.strbWidth + j - d.off]? = some (byteOf (s.shiftTdata i) j)

namespace Saves

theorem lead_eq (h : Saves d fr s) : s.lead = p.strbWidth - d.off := by rw [lead, h.offset]

/-- A frame that has ended has a byte left only if there is an offset. -/
theorem zero_of_ended (h : Saves d fr s) (he : frameEnded fr = true) : s.zeroOffset = false := by
  have hlen := h.frame.length_le
  have hleft := h.left he
  rw [h.zero, decide_eq_false_iff_not]
  omega

/-- The lanes below the offset have bytes of the beat that is saved. -/
theorem save_lane (h : Saves d fr s) (he : frameEnded fr = false) {j : ℕ} (hj : j < d.off) :
    s.saveKeep.getLsbD (p.strbWidth - d.off + j)
        = decide (d.off ≤ fr.length * p.strbWidth + j) ∧
      (d.off ≤ fr.length * p.strbWidth + j → (frameBytes fr)[fr.length * p.strbWidth + j - d.off]?
        = some (byteOf s.saveData (p.strbWidth - d.off + j))) := by
  have hoff := WrDesc.off_lt (d := d)
  rcases List.eq_nil_or_concat fr with rfl | ⟨init, c, rfl⟩
  · have hzero : (0 : BitVec p.strbWidth).getLsbD (p.strbWidth - d.off + j) = false :=
      BitVec.getLsbD_zero
    rw [h.empty rfl, hzero, List.length_nil, Nat.zero_mul, Nat.zero_add]
    exact ⟨(decide_eq_false (by omega)).symm, fun hle => absurd hle (by omega)⟩
  · rw [List.concat_eq_append] at h he ⊢
    rw [frameEnded_append] at he
    have hframe := h.frame
    have hwhole := hframe.whole_last
    have hfull := hwhole.length_of_more he
    obtain ⟨hdata, hkeep, _⟩ := h.save c (by simp)
    have hlane : p.strbWidth - d.off + j < p.strbWidth := by omega
    have hidx : (init ++ [c]).length * p.strbWidth + j - d.off
        = init.length * p.strbWidth + (p.strbWidth - d.off + j) := by
      rw [List.length_append, List.length_singleton, Nat.succ_mul]
      omega
    rw [hkeep, hwhole.tkeep_bit hlane, hfull, hidx, hframe.getElem?_append, hdata]
    refine ⟨decide_eq_decide.mpr ?_, fun _ => hwhole.getElem?_bytes (by omega)⟩
    rw [List.length_append, List.length_singleton, Nat.succ_mul]
    omega

/-- A beat comes. -/
theorem window (h : Saves d fr s) (he : frameEnded fr = false) (hb : WrAxis.Whole i.beat) :
    Window d fr.length (frameBytes (fr ++ [i.beat])) s i := by
  have hoff := WrDesc.off_lt (d := d)
  have hframe := h.frame.append he hb
  have hle := hb.length_le
  have hpos := hb.length_pos
  have hextra : s.extraCycle = false := h.extra.trans he
  have hlength := hframe.length_append
  by_cases hz : d.off = 0
  · -- the beat goes out as it comes
    have hzero : s.zeroOffset = true := by rw [h.zero, decide_eq_true hz]
    refine ⟨?_, ?_⟩
    · intro j hj
      rw [shiftTkeep, hzero, if_pos rfl, hb.tkeep_bit hj, hlength, hz]
      exact decide_eq_decide.mpr (by omega)
    · intro j hj _ hlt
      rw [hlength, hz] at hlt
      rw [shiftTdata, hzero, if_pos rfl, hz, Nat.sub_zero, hframe.getElem?_append]
      exact hb.getElem?_bytes (by omega)
  · have hzero : s.zeroOffset = false := by rw [h.zero, decide_eq_false hz]
    refine ⟨?_, ?_⟩
    · intro j hj
      rw [shiftTkeep, hzero, if_neg Bool.false_ne_true, hextra, if_neg Bool.false_ne_true,
        getLsbD_join _ _ hj, h.lead_eq, hlength]
      by_cases hlow : j < d.off
      · rw [if_pos (by omega), (h.save_lane he hlow).1]
        exact decide_eq_decide.mpr (by omega)
      · rw [if_neg (by omega), hb.tkeep_bit (by omega)]
        exact decide_eq_decide.mpr (by omega)
    · intro j hj hle' hlt
      rw [hlength] at hlt
      rw [shiftTdata, hzero, if_neg Bool.false_ne_true, byteOf_join _ _ hj, h.lead_eq]
      by_cases hlow : j < d.off
      · rw [if_pos (by omega), frameBytes_append, List.getElem?_append_left,
          (h.save_lane he hlow).2 hle']
        rw [h.frame.length_bytes he]
        omega
      · have hidx : fr.length * p.strbWidth + j - d.off
            = fr.length * p.strbWidth + (p.strbWidth - d.off + j - p.strbWidth) := by omega
        rw [if_neg (by omega), hidx, hframe.getElem?_append]
        exact hb.getElem?_bytes (by omega)

/-- The frame has ended, and its last bytes go out. -/
theorem window_extra (h : Saves d fr s) (he : frameEnded fr = true) :
    Window d fr.length (frameBytes fr) s i := by
  have hoff := WrDesc.off_lt (d := d)
  have hextra : s.extraCycle = true := h.extra.trans he
  have hzero := h.zero_of_ended he
  have hfr : fr ≠ [] := by
    rintro rfl
    exact absurd he Bool.false_ne_true
  obtain ⟨init, c, rfl⟩ : ∃ init c, fr = init ++ [c] :=
    ⟨fr.dropLast, fr.getLast hfr, (List.dropLast_append_getLast hfr).symm⟩
  have hframe := h.frame
  have hwhole := hframe.whole_last
  have hle := hwhole.length_le
  obtain ⟨hdata, hkeep, _⟩ := h.save c (by simp)
  have hlength := hframe.length_append
  have hcount : (init ++ [c]).length * p.strbWidth = init.length * p.strbWidth + p.strbWidth := by
    rw [List.length_append, List.length_singleton, Nat.succ_mul]
  refine ⟨?_, ?_⟩
  · intro j hj
    rw [shiftTkeep, hzero, if_neg Bool.false_ne_true, hextra, if_pos rfl, getLsbD_join _ _ hj,
      h.lead_eq, hlength, hcount]
    by_cases hlow : j < d.off
    · rw [if_pos (by omega), hkeep, hwhole.tkeep_bit (by omega)]
      exact decide_eq_decide.mpr (by omega)
    · rw [if_neg (by omega)]
      have hbit : (0 : BitVec p.strbWidth).getLsbD (p.strbWidth - d.off + j - p.strbWidth)
          = false := BitVec.getLsbD_zero
      rw [hbit]
      exact (decide_eq_false (by omega)).symm
  · intro j hj hle' hlt
    rw [hlength, hcount] at hlt
    have hlow : j < d.off := by omega
    have hidx : init.length * p.strbWidth + p.strbWidth + j - d.off
        = init.length * p.strbWidth + (p.strbWidth - d.off + j) := by omega
    rw [shiftTdata, hzero, if_neg Bool.false_ne_true, byteOf_join _ _ hj, h.lead_eq,
      if_pos (by omega), hcount, hidx, hframe.getElem?_append, hdata]
    exact hwhole.getElem?_bytes (by omega)

/-- A frame that ends ends in the word if its bytes do. -/
theorem shiftTlast_eq (h : Saves d fr s) (he : frameEnded fr = false)
    (hb : WrAxis.Whole i.beat) : s.shiftTlast i = (i.beat.tlast &&
      decide ((frameBytes (fr ++ [i.beat])).length + d.off ≤ (fr.length + 1) * p.strbWidth)) := by
  have hoff := WrDesc.off_lt (d := d)
  have hle := hb.length_le
  have hextra : s.extraCycle = false := h.extra.trans he
  rw [shiftTlast, hextra, if_neg Bool.false_ne_true, (h.frame.append he hb).length_append,
    Nat.succ_mul fr.length]
  by_cases hz : d.off = 0
  · rw [h.zero, decide_eq_true hz, if_pos rfl, hz, decide_eq_true (by omega), Bool.and_true]
  · rw [h.zero, decide_eq_false hz, if_neg Bool.false_ne_true, Bool.beq_eq_decide_eq]
    refine congrArg _ (decide_eq_decide.mpr ⟨?_, ?_⟩)
    · intro h0
      by_contra hlt
      -- the lowest of the upper lanes is kept
      have hbit := congrArg (BitVec.getLsbD · s.lead) h0
      have hlead : p.strbWidth - d.off < p.strbWidth := by omega
      have hkeep := hb.tkeep_bit hlead
      rw [decide_eq_true (by omega), BitVec.getLsbD_eq_getElem hlead] at hkeep
      simp [h.lead_eq, hkeep, hlead] at hbit
    · intro hle'
      apply BitVec.eq_of_getLsbD_eq
      intro j hj
      have hkeep := hb.tkeep_bit hj
      rw [BitVec.getLsbD_and, hkeep, h.lead_eq]
      by_cases hlow : j < (WrAxis.bytes i.beat).length
      · have hlt : j < p.strbWidth - d.off := by omega
        simp [hlt]
      · simp [hlow]

/-- What is left of a frame that has ended goes out in one more word. -/
theorem extra_eq (h : Saves d fr s) (he : frameEnded fr = false) (hb : WrAxis.Whole i.beat) :
    (i.beat.tlast && i.beat.tkeep >>> s.lead != 0) = (i.beat.tlast &&
      decide ((fr.length + 1) * p.strbWidth < (frameBytes (fr ++ [i.beat])).length + d.off)) := by
  have hoff := WrDesc.off_lt (d := d)
  have hle := hb.length_le
  rw [(h.frame.append he hb).length_append, Nat.succ_mul fr.length, bne, Bool.beq_eq_decide_eq,
    ← decide_not]
  refine congrArg _ (decide_eq_decide.mpr ⟨?_, ?_⟩)
  · intro hne
    by_contra hno
    apply hne
    apply BitVec.eq_of_getLsbD_eq
    intro j hj
    have hzero : (0 : BitVec p.strbWidth).getLsbD j = false := BitVec.getLsbD_zero
    rw [BitVec.getLsbD_ushiftRight, h.lead_eq, hzero]
    by_cases hin : p.strbWidth - d.off + j < p.strbWidth
    · rw [hb.tkeep_bit hin, decide_eq_false (by omega)]
    · exact BitVec.getLsbD_of_ge _ _ (by omega)
  · intro hlt h0
    have hbit := congrArg (BitVec.getLsbD · 0) h0
    have hlead : p.strbWidth - d.off < p.strbWidth := by omega
    have hkeep := hb.tkeep_bit hlead
    rw [decide_eq_true (by omega)] at hkeep
    simp [h.lead_eq, hkeep] at hbit

theorem shiftTlast_extra (h : Saves d fr s) (he : frameEnded fr = true) :
    s.shiftTlast i = true := by
  have hextra : s.extraCycle = true := h.extra.trans he
  rw [shiftTlast, h.zero_of_ended he, if_neg Bool.false_ne_true, hextra, if_pos rfl]
  rcases List.eq_nil_or_concat fr with rfl | ⟨init, c, rfl⟩
  · exact absurd he Bool.false_ne_true
  · rw [List.concat_eq_append] at h he
    rw [frameEnded_append] at he
    exact ((h.save c (by simp)).2.2).trans he

end Saves

/-! ### The word that goes out -/

/-- Word `k` of the bytes `l` goes out; `e` says that these are all bytes of the frame. -/
structure Emits (d : WrDesc p) (k : ℕ) (l : List (BitVec 8)) (e : Bool) (s : WrControl p)
    (i : WrControlIn p) : Prop where
  window : Window d k l s i
  tlast : s.shiftTlast i = (e && decide (l.length + d.off ≤ (k + 1) * p.strbWidth))
  full : e = false → l.length = (k + 1) * p.strbWidth
  begun : k * p.strbWidth < l.length + d.off

theorem Saves.emits (h : Saves d fr s) (he : frameEnded fr = false) (hb : WrAxis.Whole i.beat) :
    Emits d fr.length (frameBytes (fr ++ [i.beat])) i.beat.tlast s i := by
  have hframe := h.frame.append he hb
  refine ⟨h.window he hb, h.shiftTlast_eq he hb, ?_, ?_⟩
  · intro hmore
    rw [hframe.length_bytes ((frameEnded_append _ _).trans hmore), List.length_append,
      List.length_singleton]
  · have := hb.length_pos
    rw [hframe.length_append]
    omega

theorem Saves.emits_extra (h : Saves d fr s) (he : frameEnded fr = true) :
    Emits d fr.length (frameBytes fr) true s i := by
  have hoff := WrDesc.off_lt (d := d)
  have hle := h.frame.length_le
  refine ⟨h.window_extra he, ?_, nofun, h.left he⟩
  rw [h.shiftTlast_extra he, Nat.succ_mul, decide_eq_true (by omega)]
  rfl

/-- Going down over all lanes finds the lowest one. -/
theorem foldl_lowest {P : ℕ → Prop} [DecidablePred P] {x n : ℕ} (hP : ∀ j < n, P j ↔ x ≤ j)
    (hx : x ≤ n) : (List.range n).reverse.foldl (fun c j => if P j then j else c) n = x := by
  have hall : ∀ m ≤ n, (List.range m).reverse.foldl (fun c j => if P j then j else c) (max x m)
      = x := by
    intro m
    induction m with
    | zero => exact fun _ => Nat.max_eq_left (Nat.zero_le x)
    | succ m ih =>
      intro hm
      rw [List.range_succ, List.reverse_append, List.reverse_singleton, List.singleton_append,
        List.foldl_cons]
      have hnext : (if P m then m else max x (m + 1)) = max x m := by
        by_cases hle : x ≤ m
        · rw [if_pos ((hP m hm).mpr hle)]
          omega
        · rw [if_neg fun h => hle ((hP m hm).mp h)]
          omega
      rw [hnext, ih (by omega)]
  have := hall n le_rfl
  rwa [Nat.max_eq_right hx] at this

theorem and_one_shiftLeft {w j : ℕ} (x : BitVec w) (hj : j < w) :
    x &&& ((1 : BitVec w) <<< j) ≠ 0 ↔ x.getLsbD j = true := by
  have hone : ∀ k, ((1 : BitVec w) <<< j).getLsbD k = (decide (k < w) && decide (k = j)) := by
    intro k
    have hbit : (1 : BitVec w).getLsbD (k - j) = (decide (0 < w) && decide (k - j = 0)) :=
      BitVec.getLsbD_one
    rw [BitVec.getLsbD_shiftLeft, hbit]
    by_cases hk : k < w <;> by_cases hkj : k = j <;> simp [hk, hkj] <;> omega
  constructor
  · intro hne
    by_contra hbit
    rw [Bool.not_eq_true] at hbit
    apply hne
    apply BitVec.eq_of_getLsbD_eq
    intro k hk
    have hzero : (0 : BitVec w).getLsbD k = false := BitVec.getLsbD_zero
    rw [BitVec.getLsbD_and, hone, hzero]
    by_cases hkj : k = j
    · rw [hkj, hbit]
      rfl
    · simp [hkj]
  · intro hbit h0
    have hzero : (0 : BitVec w).getLsbD j = false := BitVec.getLsbD_zero
    rw [← h0, BitVec.getLsbD_and, hone, hbit, decide_eq_true hj, decide_eq_true rfl] at hzero
    exact absurd hzero Bool.true_eq_false.mp

namespace Emits

variable {k : ℕ} {l : List (BitVec 8)} {e : Bool}

theorem cycleSize_eq (h : Emits d k l e s i)
    (hmask : ∀ j < p.strbWidth, s.strbOffsetMask.getLsbD j = decide (d.off ≤ k * p.strbWidth + j))
    (hl : l.length + d.off ≤ (k + 1) * p.strbWidth) :
    s.cycleSize i = l.length + d.off - k * p.strbWidth := by
  have hbegun := h.begun
  have hoff := WrDesc.off_lt (d := d)
  rw [Nat.succ_mul] at hl
  rw [cycleSize]
  refine foldl_lowest
    (P := fun j => ~~~s.shiftTkeep i &&& s.strbOffsetMask &&& ((1 : BitVec _) <<< j) ≠ 0) ?_
    (by omega)
  intro j hj
  rw [and_one_shiftLeft _ hj, BitVec.getLsbD_and, BitVec.getLsbD_not, h.window.keep j hj,
    hmask j hj, decide_eq_true hj, Bool.true_and, Bool.and_eq_true, Bool.not_eq_true',
    decide_eq_false_iff_not, decide_eq_true_iff]
  omega

/-- The place of a word among those of the descriptor, as the registers have it. -/
structure Place (d : WrDesc p) (k : ℕ) (s : WrControl p) : Prop where
  fits : d.Fits
  lastOffset : s.lastCycleOffset.toNat = (d.len.toNat + d.off) % p.strbWidth
  mask : ∀ j < p.strbWidth,
    s.strbOffsetMask.getLsbD j = decide (d.off ≤ k * p.strbWidth + j)
  le : k ≤ d.lastWord
  last : (s.outputLastCycle && s.opWordCount == 0) = decide (k = d.lastWord)
  transfer : s.lastTransfer = (s.opWordCount == 0)

namespace Place

variable (hp : Place d k s)

include hp

theorem lastOffset_pos : 0 < s.lastCycleOffset ↔ (d.len.toNat + d.off) % p.strbWidth ≠ 0 := by
  rw [BitVec.lt_def, hp.lastOffset]
  exact Nat.pos_iff_ne_zero

/-- The end of the descriptor is in its last word. -/
theorem len_le (hk : k = d.lastWord) : d.len.toNat + d.off ≤ (k + 1) * p.strbWidth := by
  have hno := (WrDesc.le_lastWord hp.fits (k := k + 1)).not
  omega

theorem len_eq (hk : k = d.lastWord) (hr : (d.len.toNat + d.off) % p.strbWidth ≠ 0) :
    d.len.toNat + d.off = k * p.strbWidth + s.lastCycleOffset.toNat := by
  have hlow := (WrDesc.le_lastWord hp.fits).mp hp.le
  have hhigh := hp.len_le hk
  have hdiv := Nat.div_add_mod' (d.len.toNat + d.off) p.strbWidth
  have hquot : (d.len.toNat + d.off) / p.strbWidth = k := by
    rw [Nat.succ_mul] at hhigh
    refine Nat.div_eq_of_lt_le (Nat.le_of_lt hlow) ?_
    rw [Nat.succ_mul]
    refine Nat.lt_of_le_of_ne hhigh fun heq => hr ?_
    rw [heq, ← Nat.succ_mul, Nat.mul_mod_left]
  rw [hp.lastOffset, ← hquot]
  exact hdiv.symm

/-- Before the last word, or with an end at the end of a word, the word is full. -/
theorem full (hk : k = d.lastWord → (d.len.toNat + d.off) % p.strbWidth = 0) :
    (k + 1) * p.strbWidth ≤ d.len.toNat + d.off := by
  have hlow := (WrDesc.le_lastWord hp.fits).mp hp.le
  rcases Nat.lt_or_eq_of_le hp.le with hlt | heq
  · exact Nat.le_of_lt ((WrDesc.le_lastWord hp.fits).mp hlt)
  · obtain ⟨x, hx⟩ := Nat.dvd_of_mod_eq_zero (hk heq)
    rw [hx, Nat.mul_comm p.strbWidth] at hlow ⊢
    exact Nat.mul_le_mul_right _ (Nat.lt_of_mul_lt_mul_right hlow)

theorem lastMask_bit (j : ℕ) :
    s.lastMask.getLsbD j = decide (j < s.lastCycleOffset.toNat) := by
  have hlt : s.lastCycleOffset.toNat < p.strbWidth := by
    rw [hp.lastOffset]
    exact Nat.mod_lt _ EngineParams.strbWidth_pos
  rw [lastMask, BitVec.getLsbD_ushiftRight, BitVec.getLsbD_allOnes]
  exact decide_eq_decide.mpr (by omega)

end Place

/-- The lanes of the word up to the end of what is written. -/
def lanesEnd (d : WrDesc p) (k : ℕ) (l : List (BitVec 8)) : ℕ :=
  min p.strbWidth (min l.length d.len.toNat + d.off - k * p.strbWidth)

/-- The strobes and the size of the word are those of what is to be written. -/
structure Strobes (d : WrDesc p) (k : ℕ) (l : List (BitVec 8)) (s : WrControl p)
    (i : WrControlIn p) : Prop where
  strb : ∀ j < p.strbWidth,
    (s.strb i).getLsbD j = decide (d.off ≤ k * p.strbWidth + j ∧ j < lanesEnd d k l)
  size : (s.size i).toNat = lanesEnd d k l

theorem strobes_frame (h : Emits d k l e s i) (hp : Place d k s) (hedge : s.edge i = .frame)
    (hl : l.length + d.off ≤ (k + 1) * p.strbWidth) (hlen : l.length ≤ d.len.toNat) :
    Strobes d k l s i := by
  have hW : p.strbWidth ≤ 128 := EngineParams.strbWidth_le
  have hbegun := h.begun
  have hsize := h.cycleSize_eq hp.mask hl
  rw [Nat.succ_mul] at hl
  have hend : lanesEnd d k l = l.length + d.off - k * p.strbWidth := by
    rw [lanesEnd]
    omega
  refine ⟨?_, ?_⟩
  · intro j hj
    have hstrb : s.strb i = s.strbOffsetMask &&& s.shiftTkeep i := by rw [strb, hedge]
    rw [hstrb, hend, BitVec.getLsbD_and, hp.mask j hj, h.window.keep j hj, ← Bool.decide_and]
    exact decide_eq_decide.mpr (by omega)
  · rw [size, hedge, hend]
    show (BitVec.ofNat 32 (s.cycleSize i)).toNat = _
    rw [hsize, BitVec.toNat_ofNat]
    exact Nat.mod_eq_of_lt (by omega)

theorem strobes_desc (hp : Place d k s) (hedge : s.edge i = .desc) (hk : k = d.lastWord)
    (hr : (d.len.toNat + d.off) % p.strbWidth ≠ 0) (hlen : d.len.toNat ≤ l.length) :
    Strobes d k l s i := by
  have hW : p.strbWidth ≤ 128 := EngineParams.strbWidth_le
  have hlen' := hp.len_eq hk hr
  have hlt : s.lastCycleOffset.toNat < p.strbWidth := by
    rw [hp.lastOffset]
    exact Nat.mod_lt _ EngineParams.strbWidth_pos
  have hend : lanesEnd d k l = s.lastCycleOffset.toNat := by
    rw [lanesEnd]
    omega
  refine ⟨?_, ?_⟩
  · intro j hj
    have hstrb : s.strb i = s.strbOffsetMask &&& s.lastMask := by rw [strb, hedge]
    rw [hstrb, hend, BitVec.getLsbD_and, hp.mask j hj, hp.lastMask_bit j, ← Bool.decide_and]
  · rw [size, hedge, hend]
    show (s.lastCycleOffset.setWidth 32).toNat = _
    rw [BitVec.toNat_setWidth]
    exact Nat.mod_eq_of_lt (by omega)

theorem strobes_none (hp : Place d k s) (hedge : s.edge i = .none)
    (hl : (k + 1) * p.strbWidth ≤ l.length + d.off)
    (hlen : (k + 1) * p.strbWidth ≤ d.len.toNat + d.off) : Strobes d k l s i := by
  have hW : p.strbWidth ≤ 128 := EngineParams.strbWidth_le
  rw [Nat.succ_mul] at hl hlen
  have hend : lanesEnd d k l = p.strbWidth := by
    rw [lanesEnd]
    omega
  refine ⟨?_, ?_⟩
  · intro j hj
    have hstrb : s.strb i = s.strbOffsetMask := by rw [strb, hedge]
    rw [hstrb, hend, hp.mask j hj]
    exact decide_eq_decide.mpr (by omega)
  · rw [size, hedge, hend]
    show (BitVec.ofNat 32 p.strbWidth).toNat = _
    rw [BitVec.toNat_ofNat]
    exact Nat.mod_eq_of_lt (by omega)

/-- A word that does not end the frame is full. -/
theorem full_of_more (h : Emits d k l e s i) (ht : s.shiftTlast i = false) :
    (k + 1) * p.strbWidth ≤ l.length + d.off := by
  have htlast := h.tlast
  rw [ht] at htlast
  cases he : e with
  | false =>
    rw [h.full he]
    exact Nat.le_add_right _ _
  | true =>
    rw [he, Bool.true_and] at htlast
    exact Nat.le_of_not_le (of_decide_eq_false htlast.symm)

/-- **The strobes and the size are right**, unless the frame and the descriptor end in this
word but not together. -/
theorem strobes (h : Emits d k l e s i) (hp : Place d k s)
    (hsuit : e = true → l.length + d.off ≤ (k + 1) * p.strbWidth → k = d.lastWord →
      l.length = d.len.toNat ∨ (d.len.toNat + d.off) % p.strbWidth = 0) :
    Strobes d k l s i := by
  have hlast := hp.last
  cases ht : s.shiftTlast i with
  | true =>
    have htlast := h.tlast
    rw [ht] at htlast
    obtain ⟨he, hl⟩ := Bool.and_eq_true_iff.mp htlast.symm
    have hl' := of_decide_eq_true hl
    by_cases hc : (s.outputLastCycle && s.lastTransfer && decide (0 < s.lastCycleOffset)) = true
    · obtain ⟨hlt, hpos⟩ := Bool.and_eq_true_iff.mp hc
      rw [hp.transfer, hlast] at hlt
      have hk := of_decide_eq_true hlt
      have hr := hp.lastOffset_pos.mp (of_decide_eq_true hpos)
      have hlen := (hsuit he hl' hk).resolve_right hr
      by_cases hkeep : 0 ≠ s.shiftTkeep i &&& ~~~s.lastMask
      · have hedge : s.edge i = .frame := by rw [edge, ht, if_pos rfl, if_pos hc, if_pos hkeep]
        exact h.strobes_frame hp hedge hl' (Nat.le_of_eq hlen)
      · have hedge : s.edge i = .desc := by rw [edge, ht, if_pos rfl, if_pos hc, if_neg hkeep]
        exact strobes_desc hp hedge hk hr (Nat.le_of_eq hlen.symm)
    · have hedge : s.edge i = .frame := by rw [edge, ht, if_pos rfl, if_neg hc]
      have hfull := hp.full fun hk => by
        by_contra hr
        apply hc
        rw [hp.transfer, hlast, decide_eq_true hk, decide_eq_true (hp.lastOffset_pos.mpr hr)]
        rfl
      exact h.strobes_frame hp hedge hl' (by omega)
  | false =>
    have hlong := h.full_of_more ht
    by_cases hc : (s.outputLastCycle && s.opWordCount == 0
        && decide (0 < s.lastCycleOffset)) = true
    · obtain ⟨hlt, hpos⟩ := Bool.and_eq_true_iff.mp hc
      rw [hlast] at hlt
      have hk := of_decide_eq_true hlt
      have hlen := hp.len_le hk
      have hedge : s.edge i = .desc := by rw [edge, ht, if_neg Bool.false_ne_true, if_pos hc]
      exact strobes_desc hp hedge hk (hp.lastOffset_pos.mp (of_decide_eq_true hpos)) (by omega)
    · have hedge : s.edge i = .none := by rw [edge, ht, if_neg Bool.false_ne_true, if_neg hc]
      refine strobes_none hp hedge hlong (hp.full fun hk => ?_)
      by_contra hr
      apply hc
      rw [hlast, decide_eq_true hk, decide_eq_true (hp.lastOffset_pos.mpr hr)]
      rfl

/-- The lanes that are strobed have what is to be written. -/
theorem lanes_eq (h : Emits d k l e s i) (hs : Strobes d k l s i) :
    strobed p.strbWidth (s.shiftTdata i) (s.strb i)
      = lanesAt p.strbWidth d.off (l.take d.len.toNat) k := by
  have hlen : (l.take d.len.toNat).length = min l.length d.len.toNat := by
    rw [List.length_take, Nat.min_comm]
  refine strobed_eq ?_ ?_
  · intro j hj
    rw [hs.strb j hj, hlen, lanesEnd]
    exact decide_eq_decide.mpr (by omega)
  · intro j hj hlow hhigh
    rw [hlen] at hhigh
    rw [List.getElem?_take, if_pos (by omega)]
    exact h.window.data j hj hlow (by omega)

end Emits

end WrControl

end AxisSystolic
