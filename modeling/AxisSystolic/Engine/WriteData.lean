import AxisSystolic.Engine.WriteShift
import AxisSystolic.Sync.Ring

/-!
# The states of the write engine

A descriptor with its frame goes through the states `start` and `write` for each burst
(`Starting`, `Writing`).  In these, as many beats have gone out as have come, but for a
frame that has ended, of which a part of the last beat is left.  With the last word of the
frame or of the descriptor the entry for its status is made; what is left of the burst is
written without strobes (`Finishing`), or what is left of the frame is dropped
(`Dropping`).
-/

namespace AxisSystolic

open Mem

variable {p : AxiDmaParams}

namespace WrControl

variable {s s' : WrControl p} {i : WrControlIn p} {d : WrDesc p} {fr : List (WrAxis p)}

/-! ### What is saved -/

theorem Saves.congr (h : Saves d fr s) (ho : s'.offset = s.offset)
    (hz : s'.zeroOffset = s.zeroOffset) (he : s'.extraCycle = s.extraCycle)
    (hd : s'.saveData = s.saveData) (hk : s'.saveKeep = s.saveKeep)
    (hl : s'.saveLast = s.saveLast) : Saves d fr s' := by
  refine ⟨h.frame, ho ▸ h.offset, hz ▸ h.zero, he ▸ h.extra, fun hfr => hk ▸ h.empty hfr, ?_,
    h.left⟩
  rw [hd, hk, hl]
  exact h.save

theorem Saves.base_of_no_store (h : Saves d fr s) (hidle : s.state ≠ .idle)
    (hs : s.stores i = false) : Saves d fr (s.base i) := by
  have hflush : s.flushSave = false := by
    rw [flushSave, beq_eq_false_iff_ne]
    exact hidle
  refine h.congr rfl rfl ?_ ?_ ?_ ?_ <;> simp [base, hflush, hs]

/-- A beat is saved that does not end the frame in its word. -/
theorem Saves.base_of_store (h : Saves d fr s) (he : frameEnded fr = false)
    (hb : WrAxis.Whole i.beat) (hidle : s.state ≠ .idle) (hs : s.stores i = true)
    (hmore : s.shiftTlast i = false) : Saves d (fr ++ [i.beat]) (s.base i) := by
  have hflush : s.flushSave = false := by
    rw [flushSave, beq_eq_false_iff_ne]
    exact hidle
  have hlong := (h.emits he hb).full_of_more hmore
  have hlast := h.shiftTlast_eq he hb
  have hextra := h.extra_eq he hb
  have hframe := h.frame.append he hb
  have hoff := WrDesc.off_lt (d := d)
  have hleft : i.beat.tlast = true → (fr.length + 1) * p.strbWidth
      < (frameBytes (fr ++ [i.beat])).length + d.off := by
    intro ht
    rw [ht, Bool.true_and, hmore] at hlast
    exact Nat.lt_of_not_le (of_decide_eq_false hlast.symm)
  refine ⟨hframe, h.offset, h.zero, ?_, ?_, ?_, ?_⟩
  · have hbase : (s.base i).extraCycle = (i.beat.tlast && i.beat.tkeep >>> s.lead != 0) := by
      simp [base, hflush, hs]
    rw [hbase, hextra, frameEnded_append]
    cases ht : i.beat.tlast with
    | false => rfl
    | true => rw [decide_eq_true (hleft ht), Bool.true_and]
  · exact fun hnil => absurd hnil (by simp)
  · intro b hb'
    have hb'' : i.beat = b := by simpa using hb'
    subst hb''
    simp [base, hflush, hs]
  · intro ht
    rw [frameEnded_append] at ht
    rw [List.length_append, List.length_singleton]
    exact hleft ht

/-- A frame that has ended is not ended by a beat in the bus. -/
theorem Saves.tready_of_ended (h : Saves d (fr ++ [i.beat]) s') (hz : s'.zeroOffset = s.zeroOffset)
    (hno : s.extraCycle = false) (ht : i.beat.tlast = true) (htakes : s.takes i = true) :
    s.shiftInputTready i = false := by
  have hzero := h.zero_of_ended ((frameEnded_append fr i.beat).trans ht)
  rw [hz] at hzero
  rw [shiftInputTready, hzero, hno, ht, htakes]
  rfl

theorem shiftInputTready_of_no_end (hno : s.extraCycle = false)
    (ht : (i.beat.tlast && s.takes i) = false) : s.shiftInputTready i = true := by
  rw [shiftInputTready, hno, ht]
  cases s.zeroOffset <;> rfl

/-- With a beat that is saved, more is taken until the frame has ended. -/
theorem Saves.shiftInputTready_eq (h : Saves d (fr ++ [i.beat]) s')
    (hz : s'.zeroOffset = s.zeroOffset) (hno : s.extraCycle = false) (htakes : s.takes i = true) :
    s.shiftInputTready i = !frameEnded (fr ++ [i.beat]) := by
  rw [frameEnded_append]
  cases ht : i.beat.tlast with
  | true => exact h.tready_of_ended hz hno ht htakes
  | false => exact shiftInputTready_of_no_end hno (by rw [ht]; rfl)

/-! ### A descriptor -/

/-- The registers of a descriptor, of whose frame the beats `fr` have come; as many have
gone out. -/
structure Holds (d : WrDesc p) (fr : List (WrAxis p)) (s : WrControl p) : Prop
    extends Saves d fr s where
  fits : d.Fits
  lastOffset : s.lastCycleOffset.toNat = (d.len.toNat + d.off) % p.strbWidth
  mask : ∀ j < p.strbWidth,
    s.strbOffsetMask.getLsbD j = decide (d.off ≤ fr.length * p.strbWidth + j)
  first : s.firstCycle = decide (fr.length = 0)
  tag : s.tag = d.tag
  side : ∀ b ∈ fr.getLast?, s.side = b.side
  length : s.length.toNat = fr.length * p.strbWidth - d.off

/-- A burst is to be begun. -/
structure Starting (d : WrDesc p) (fr : List (WrAxis p)) (bs : List AxiBurst) (s : WrControl p) :
    Prop extends Holds d fr s where
  state : s.state = .start
  tready : s.tready = false
  bursts : d.bursts = bs ++ p.transfer s.addr s.opWordCount
  words : (bs.flatMap p.words).length = fr.length
  more : s.opWordCount ≠ 0
  addr_le : s.addr.toNat + s.opWordCount.toNat ≤ 2 ^ 32
  begin : fr.length = 0 → s.addr = d.addr ∧ s.opWordCount = d.len
  next : fr.length ≠ 0 → p.strbWidth ∣ s.addr.toNat ∧
    s.opWordCount.toNat + fr.length * p.strbWidth = d.len.toNat + d.off
  exact : frameEnded fr = true → (frameBytes fr).length = d.len.toNat

/-- The burst that is left after the ones that have been begun. -/
def restBursts (s : WrControl p) : List AxiBurst :=
  if s.opWordCount = 0 then [] else p.transfer s.addr s.opWordCount

/-- Beat `n` of the bursts `bs` is the next one, and one of the last burst. -/
structure Counts (bs : List AxiBurst) (n : ℕ) (s : WrControl p) : Prop where
  last : s.outputLastCycle = decide (s.outputCycleCount.toNat = 0)
  words : n + (s.outputCycleCount.toNat + 1) = (bs.flatMap p.words).length
  burst : ∃ pre b, bs = pre ++ [b] ∧ (pre.flatMap p.words).length ≤ n

/-- The words of a burst go out. -/
structure Writing (d : WrDesc p) (fr : List (WrAxis p)) (bs : List AxiBurst) (s : WrControl p) :
    Prop extends Holds d fr s, Counts bs fr.length s where
  state : s.state = .write
  tready : frameEnded fr = true → s.tready = false
  bursts : d.bursts = bs ++ s.restBursts
  transfer : s.lastTransfer = (s.opWordCount == 0)
  next : s.opWordCount ≠ 0 → p.strbWidth ∣ s.addr.toNat ∧
    s.opWordCount.toNat + (bs.flatMap p.words).length * p.strbWidth = d.len.toNat + d.off ∧
    s.addr.toNat + s.opWordCount.toNat ≤ 2 ^ 32
  input : frameEnded fr = false → s.opWordCount ≠ 0 →
    s.inputActive = true ∧ s.inputCycleCount = s.outputCycleCount

/-- The burst goes on after the end of the frame: `n` beats are out. -/
structure Finishing (bs : List AxiBurst) (n : ℕ) (s : WrControl p) : Prop
    extends Counts bs n s where
  state : s.state = .finishBurst
  tready : s.tready = false

/-- The rest of the frame is dropped. -/
structure Dropping (d : WrDesc p) (fr : List (WrAxis p)) (s : WrControl p) : Prop
    extends Saves d fr s where
  state : s.state = .dropData
  tready : s.tready = !frameEnded fr

/-! ### The beats of a burst -/

theorem beq_zero_eq {w : ℕ} (x : BitVec w) : (x == 0) = decide (x.toNat = 0) := by
  rw [Bool.beq_eq_decide_eq]
  exact decide_eq_decide.mpr BitVec.toNat_inj.symm

namespace Counts

variable {bs : List AxiBurst} {n : ℕ}

theorem next (h : Counts bs n s) (hl : s.outputLastCycle = false)
    (hcount : s'.outputCycleCount = s.outputCountNext)
    (hlast : s'.outputLastCycle = (s.outputCountNext == 0)) : Counts bs (n + 1) s' := by
  have hwords := h.words
  rw [h.last, decide_eq_false_iff_not] at hl
  have hne : s.outputCycleCount ≠ 0 := fun h0 => hl (congrArg BitVec.toNat h0)
  refine ⟨?_, ?_, ?_⟩
  · rw [hlast, hcount, beq_zero_eq]
  · rw [hcount, outputCountNext, Sync.toNat_sub_one hne]
    omega
  · obtain ⟨pre, b, hbs, hle⟩ := h.burst
    exact ⟨pre, b, hbs, Nat.le_succ_of_le hle⟩

theorem last_iff (h : Counts bs n s) :
    s.outputLastCycle = true ↔ n + 1 = (bs.flatMap p.words).length := by
  have := h.words
  rw [h.last, decide_eq_true_iff]
  omega

/-- It is marked if it is the last one of the burst. -/
theorem mark_eq (h : Counts bs n s) : (lastMarks bs)[n]?.getD false = s.outputLastCycle := by
  obtain ⟨pre, b, rfl, hpre⟩ := h.burst
  rw [getElem?_lastMarks (p := p.toEngineParams) hpre h.words, h.last]
  rfl

end Counts

/-! ### A descriptor is taken in -/

/-- Whatever was there before, the registers are those of the descriptor. -/
theorem starting_of_accepts (hst : s.state = .idle) (ha : s.accepts i = true)
    (hfit : i.desc.Fits) : Starting i.desc [] [] (s.step i) := by
  have hoff := AxiDmaParams.toNat_offset_setWidth (p := p) i.desc.addr
  have hlen := AxiDmaParams.toNat_offset_setWidth (p := p) i.desc.len
  have hflush : s.flushSave = true := by rw [flushSave, hst]; rfl
  refine ⟨⟨⟨Frame.nil, ?_, ?_, ?_, ?_, nofun, nofun⟩, hfit, ?_, ?_, ?_, ?_, nofun, ?_⟩, ?_, ?_, ?_,
    rfl, ?_, ?_, ?_, fun h => absurd rfl h, nofun⟩
  · simpa [step, hst, WrDesc.off] using hoff
  · have hzero : (s.step i).zeroOffset = (i.desc.addr &&& p.offsetMask == 0) := by
      simp [step, hst]
    rw [hzero, Bool.beq_eq_decide_eq]
    refine decide_eq_decide.mpr ⟨fun h0 => ?_, fun h0 => BitVec.eq_of_toNat_eq ?_⟩
    · rw [WrDesc.off, ← EngineParams.toNat_offset, h0]
      rfl
    · rw [EngineParams.toNat_offset]
      exact h0
  · simp [step, hst, base, hflush, frameEnded]
  · intro _
    simp [step, hst, base, hflush]
  · have hlast : (s.step i).lastCycleOffset = (i.desc.addr &&& p.offsetMask).setWidth p.offsetWidth
        + (i.desc.len &&& p.offsetMask).setWidth p.offsetWidth := by
      simp [step, hst]
    rw [hlast, BitVec.toNat_add, hoff, hlen]
    by_cases hW : 1 < p.strbWidth
    · have hpow : 2 ^ p.offsetWidth = p.strbWidth := by
        rw [EngineParams.offsetWidth, if_pos hW, EngineParams.strbWidth]
      rw [hpow, Nat.add_mod_mod, Nat.add_comm, WrDesc.off]
    · have hone : p.strbWidth = 1 := by
        have := EngineParams.strbWidth_pos (p := p.toEngineParams)
        omega
      rw [hone, Nat.mod_one, Nat.mod_one, Nat.mod_one]
      exact Nat.zero_mod _
  · intro j hj
    have hmask : (s.step i).strbOffsetMask
        = BitVec.allOnes _ <<< (i.desc.addr &&& p.offsetMask).toNat := by
      simp [step, hst]
    rw [hmask, EngineParams.toNat_offset, BitVec.getLsbD_shiftLeft, BitVec.getLsbD_allOnes,
      List.length_nil, Nat.zero_mul, Nat.zero_add, WrDesc.off]
    by_cases hle : i.desc.addr.toNat % p.strbWidth ≤ j
    · simp [hle, hj]
      omega
    · simp [hle]
  · simp [step, hst]
  · simp [step, hst]
  · simp [step, hst]
  · simp [step, hst, ha]
  · simp [step, hst, base]
  · simp [step, hst, WrDesc.bursts]
  · simpa [step, hst] using hfit.len
  · simpa [step, hst] using hfit.addr
  · intro _
    simp [step, hst]

/-! ### A burst is begun -/

namespace Starting

variable {bs : List AxiBurst}

theorem cut (h : Starting d fr bs s) :
    EngineParams.Cut p.toEngineParams s.addr.toNat s.opWordCount.toNat s.startTr.toNat :=
  EngineParams.trWordCount_cut h.more

theorem stores (h : Starting d fr bs s) (i : WrControlIn p) : s.stores i = false := by
  rw [WrControl.stores, h.state]

theorem saves_step (h : Starting d fr bs s) (i : WrControlIn p) : Saves d fr (s.step i) := by
  have hbase := h.toSaves.base_of_no_store (i := i) (by simp [h.state]) (h.stores i)
  refine hbase.congr ?_ ?_ ?_ ?_ ?_ ?_ <;> simp [step, h.state]

theorem holds_step (h : Starting d fr bs s) (i : WrControlIn p) : Holds d fr (s.step i) := by
  refine ⟨h.saves_step i, h.fits, ?_, ?_, ?_, ?_, ?_, ?_⟩
  · simpa [step, h.state, base] using h.lastOffset
  · simpa [step, h.state, base] using h.mask
  · simpa [step, h.state, base] using h.first
  · simpa [step, h.state, base] using h.tag
  · simpa [step, h.state, base] using h.side
  · simpa [step, h.state, base] using h.length

theorem wait (h : Starting d fr bs s) (hb : s.begins i = false) : Starting d fr bs (s.step i) := by
  have haddr : (s.step i).addr = s.addr := by simp [step, h.state, hb]
  have hop : (s.step i).opWordCount = s.opWordCount := by simp [step, h.state, hb]
  refine ⟨h.holds_step i, ?_, ?_, ?_, h.words, ?_, ?_, ?_, ?_, h.exact⟩
  · simp [step, h.state, hb]
  · simp [step, h.state, hb]
  · rw [haddr, hop]
    exact h.bursts
  · rw [hop]
    exact h.more
  · rw [haddr, hop]
    exact h.addr_le
  · rw [haddr, hop]
    exact h.begin
  · rw [haddr, hop]
    exact h.next

/-- The burst has the words that the counter counts. -/
theorem toNat_startOutput (h : Starting d fr bs s) : s.startOutput.toNat
    = (s.startTr.toNat + s.addr.toNat % p.strbWidth - 1) / p.strbWidth ∧
    s.startOutput.toNat = (p.burst s.addr s.opWordCount).len.toNat ∧
    s.startOutput.setWidth 8 = (p.burst s.addr s.opWordCount).len := by
  have hbs := p.burstSize_lt
  obtain ⟨hlen, hlt⟩ := EngineParams.toNat_burst_len (p := p.toEngineParams) (a := s.addr) h.more
  have hmax := p.maxBurstLen_le
  have hfits := h.cut.fits
  have hM : p.maxBurstLen * p.strbWidth ≤ 256 * 128 :=
    Nat.mul_le_mul p.maxBurstLen_le EngineParams.strbWidth_le
  have hcyc := EngineParams.toNat_cycles (p := p.toEngineParams) (a := s.addr)
    (EngineParams.trWordCount_ne_zero (a := s.addr) h.more)
    (show s.startTr.toNat + s.addr.toNat % p.strbWidth ≤ 2 ^ 32 by omega)
  have hnat : s.startOutput.toNat
      = (s.startTr.toNat + s.addr.toNat % p.strbWidth - 1) / p.strbWidth := by
    have hpow : 2 ^ 8 ≤ 2 ^ p.cycleCountWidth :=
      Nat.pow_le_pow_right Nat.two_pos (by rw [AxiDmaParams.cycleCountWidth]; omega)
    rw [startOutput, BitVec.toNat_setWidth]
    refine (Nat.mod_eq_of_lt ?_).trans hcyc
    change (p.cycles s.addr (p.trWordCount s.addr s.opWordCount)).toNat < _
    rw [hcyc, ← hlen]
    omega
  refine ⟨hnat, hnat.trans hlen.symm, ?_⟩
  rw [startOutput, BitVec.setWidth_setWidth_of_le _ (by rw [AxiDmaParams.cycleCountWidth]; omega)]
  rfl

/-- A burst that is not the last one ends with a word. -/
theorem dvd_of_more (h : Starting d fr bs s) (hmore : s.startTr ≠ s.opWordCount) :
    p.strbWidth ∣ s.addr.toNat + s.startTr.toNat ∧
      p.strbWidth ∣ s.startTr.toNat + s.addr.toNat % p.strbWidth := by
  have hdvd := h.cut.aligned fun heq => hmore (BitVec.eq_of_toNat_eq heq)
  have hdiv := Nat.div_add_mod s.addr.toNat p.strbWidth
  refine ⟨hdvd, (Nat.dvd_add_right (Dvd.intro (s.addr.toNat / p.strbWidth) rfl)).mp ?_⟩
  rwa [Nat.add_comm s.startTr.toNat, ← Nat.add_assoc, hdiv]

/-- It is as many beats as words. -/
theorem startInput_eq (h : Starting d fr bs s) (hmore : s.startTr ≠ s.opWordCount) :
    s.startInput = s.startOutput := by
  have hpos := h.cut.pos
  have hlt := Nat.mod_lt s.addr.toNat (EngineParams.strbWidth_pos (p := p.toEngineParams))
  refine BitVec.eq_of_toNat_eq ?_
  have hone : (s.startTr - 1).toNat = s.startTr.toNat - 1 :=
    BitVec.toNat_sub_of_le (show (1 : BitVec 32) ≤ s.startTr from BitVec.le_def.mpr hpos)
  rw [startInput, AxiDmaParams.toNat_cycles_setWidth, hone, h.toNat_startOutput.1]
  -- both are one less than the words that end with the burst
  obtain ⟨c, hc⟩ := (h.dvd_of_more hmore).2
  obtain ⟨e, rfl⟩ : ∃ e, c = e + 1 := Nat.exists_eq_succ_of_ne_zero fun h0 => by
    rw [h0, Nat.mul_zero] at hc
    omega
  rw [Nat.mul_succ] at hc
  have hleft : s.startTr.toNat - 1
      = p.strbWidth * e + (p.strbWidth - s.addr.toNat % p.strbWidth - 1) := by omega
  have hright : s.startTr.toNat + s.addr.toNat % p.strbWidth - 1
      = p.strbWidth * e + (p.strbWidth - 1) := by omega
  rw [hleft, hright, Nat.mul_add_div (by omega), Nat.mul_add_div (by omega),
    Nat.div_eq_of_lt (by omega), Nat.div_eq_of_lt (by omega)]

/-- Bytes of a frame that has ended fit into the last word, which is served by what is
saved. -/
theorem startActive_of_ended (h : Starting d fr bs s) (he : frameEnded fr = true) :
    s.startActive = false := by
  have hoff := WrDesc.off_lt (d := d)
  have hne : fr.length ≠ 0 := fun h0 => by
    rw [List.length_eq_zero_iff.mp h0] at he
    exact absurd he Bool.false_ne_true
  obtain ⟨hdvd, hnext⟩ := h.next hne
  have hleft := h.left he
  have hexact := h.exact he
  have hle := h.frame.length_le
  have hcut := h.cut
  have htrle := hcut.le
  have hpos := hcut.pos
  have hop : s.opWordCount.toNat ≤ d.off := by omega
  have hlast : s.startTr = s.opWordCount := by
    by_contra hmore
    have hsum := (h.dvd_of_more hmore).1
    have := Nat.le_of_dvd hpos ((Nat.dvd_add_right hdvd).mp hsum)
    omega
  have hlco : s.lastCycleOffset.toNat = s.opWordCount.toNat := by
    rw [h.lastOffset, ← hnext, Nat.add_mul_mod_self_right]
    exact Nat.mod_eq_of_lt (by omega)
  have hstored : s.startStored = true := by
    have hlco' : s.lastCycleOffset ≤ s.offset ∧ 0 < s.lastCycleOffset := by
      rw [BitVec.le_def, BitVec.lt_def, hlco, h.offset]
      exact ⟨hop, Nat.pos_of_ne_zero fun h0 => h.more (BitVec.eq_of_toNat_eq h0)⟩
    rw [startStored, h.first, decide_eq_false hne, startLast, hlast, beq_self_eq_true,
      decide_eq_true hlco']
    rfl
  have hone : (s.startTr - 1).toNat = s.startTr.toNat - 1 :=
    BitVec.toNat_sub_of_le (show (1 : BitVec 32) ≤ s.startTr from BitVec.le_def.mpr hpos)
  have hinput : ¬0 < s.startInput := by
    rw [BitVec.lt_def, startInput, AxiDmaParams.toNat_cycles_setWidth, hone,
      Nat.div_eq_of_lt (by omega)]
    exact Nat.lt_irrefl 0
  rw [startActive, hstored, if_pos rfl, decide_eq_false hinput]

theorem toNat_startOutput_of_more (h : Starting d fr bs s) (hmore : s.startTr ≠ s.opWordCount) :
    (s.startOutput.toNat + 1) * p.strbWidth = s.startTr.toNat + s.addr.toNat % p.strbWidth := by
  have hpos := h.cut.pos
  have hW := EngineParams.strbWidth_pos (p := p.toEngineParams)
  obtain ⟨c, hc⟩ := (h.dvd_of_more hmore).2
  obtain ⟨e, rfl⟩ : ∃ e, c = e + 1 := Nat.exists_eq_succ_of_ne_zero fun h0 => by
    rw [h0, Nat.mul_zero] at hc
    omega
  rw [h.toNat_startOutput.1, hc, Nat.mul_succ, Nat.add_sub_assoc hW, Nat.mul_add_div hW,
    Nat.div_eq_of_lt (by omega), Nat.add_zero, ← Nat.mul_succ, Nat.mul_comm]

theorem rest_eq_zero_iff (h : Starting d fr bs s) :
    s.opWordCount - s.startTr = 0 ↔ s.startTr = s.opWordCount := by
  have hle := h.cut.le
  have hsub : (s.opWordCount - s.startTr).toNat = s.opWordCount.toNat - s.startTr.toNat :=
    EngineParams.toNat_rest h.more
  have h0 : (0 : BitVec 32).toNat = 0 := rfl
  rw [← BitVec.toNat_inj, ← BitVec.toNat_inj, hsub, h0]
  omega

/-- What is left after the burst starts with a word, behind the words of the burst. -/
theorem next_of_more (h : Starting d fr bs s) (hmore : s.startTr ≠ s.opWordCount) :
    p.strbWidth ∣ (s.addr + s.startTr).toNat ∧ (s.opWordCount - s.startTr).toNat
        + (fr.length + (s.startOutput.toNat + 1)) * p.strbWidth = d.len.toNat + d.off ∧
      (s.addr + s.startTr).toNat + (s.opWordCount - s.startTr).toNat ≤ 2 ^ 32 := by
  have hle := h.cut.le
  have hfull := h.toNat_startOutput_of_more hmore
  have hbound := h.addr_le
  have hop : (s.opWordCount - s.startTr).toNat = s.opWordCount.toNat - s.startTr.toNat :=
    EngineParams.toNat_rest h.more
  have hlt : s.startTr.toNat ≠ s.opWordCount.toNat := fun heq => hmore (BitVec.eq_of_toNat_eq heq)
  have haddr : (s.addr + s.startTr).toNat = s.addr.toNat + s.startTr.toNat := by
    rw [BitVec.toNat_add]
    exact Nat.mod_eq_of_lt (by omega)
  rw [haddr, hop, Nat.add_mul, hfull]
  refine ⟨(h.dvd_of_more hmore).1, ?_, by omega⟩
  rcases Nat.eq_zero_or_pos fr.length with h0 | hpos
  · obtain ⟨haddr0, hop0⟩ := h.begin h0
    rw [h0, Nat.zero_mul, haddr0, hop0, WrDesc.off]
    rw [hop0] at hle
    omega
  · obtain ⟨hdvd, hsum⟩ := h.next (Nat.ne_of_gt hpos)
    rw [Nat.mod_eq_zero_of_dvd hdvd]
    omega

/-- The next burst of the descriptor is begun. -/
theorem begin_ (h : Starting d fr bs s) (hb : s.begins i = true) :
    Writing d fr (bs ++ [p.burst s.addr s.opWordCount]) (s.step i) ∧
      (s.step i).aw = p.burst s.addr s.opWordCount ∧ (s.step i).awvalid = true := by
  have haw : (!s.awvalid && i.activeAv) = true := by
    rw [begins, Bool.and_eq_true] at hb
    exact hb.1
  have haddr : (s.step i).addr = s.addr + s.startTr := by simp [step, h.state, hb]
  have hop : (s.step i).opWordCount = s.opWordCount - s.startTr := by simp [step, h.state, hb]
  have hout : (s.step i).outputCycleCount = s.startOutput := by simp [step, h.state]
  obtain ⟨_, hlen, hlen8⟩ := h.toNat_startOutput
  have hwords : ((bs ++ [p.burst s.addr s.opWordCount]).flatMap p.words).length
      = fr.length + (s.startOutput.toNat + 1) := by
    rw [List.flatMap_append, List.length_append, h.words, List.flatMap_singleton,
      AxisSystolic.length_words, ← hlen]
  refine ⟨⟨h.holds_step i, ⟨?_, ?_, bs, _, rfl, Nat.le_of_eq h.words⟩, ?_, ?_, ?_, ?_, ?_, ?_⟩,
    ?_, ?_⟩
  · have hlast : (s.step i).outputLastCycle = (s.startOutput == 0) := by simp [step, h.state]
    rw [hlast, hout, beq_zero_eq]
  · rw [hout, hwords]
  · simp [step, h.state, hb]
  · intro he
    simp [step, h.state, h.startActive_of_ended he]
  · rw [h.bursts, restBursts, haddr, hop, List.append_assoc, EngineParams.transfer_eq]
    rfl
  · have hlast : (s.step i).lastTransfer = s.startLast := by simp [step, h.state]
    rw [hlast, hop, startLast, Bool.beq_eq_decide_eq, Bool.beq_eq_decide_eq]
    exact decide_eq_decide.mpr h.rest_eq_zero_iff.symm
  · rw [hop, haddr, hwords]
    exact fun hne => h.next_of_more (mt h.rest_eq_zero_iff.mpr hne)
  · intro _ hne
    rw [hop] at hne
    have hmore := mt h.rest_eq_zero_iff.mpr hne
    have hstored : s.startStored = false := by
      rw [startStored, startLast, beq_eq_false_iff_ne.mpr hmore, Bool.and_false, Bool.false_and]
    refine ⟨by simp [step, h.state, startActive, hstored], ?_⟩
    rw [hout, ← h.startInput_eq hmore]
    simp [step, h.state, hstored]
  · simp [step, h.state, haw]
    exact congrArg (AxiBurst.mk s.addr) hlen8
  · simp [step, h.state, haw, hb]

end Starting

end WrControl

end AxisSystolic
