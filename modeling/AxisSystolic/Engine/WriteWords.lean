import AxisSystolic.Engine.WriteData

/-!
# The words of a write descriptor

With each beat that comes in the state `write`, or with what is left of the last one, a word
goes out (`Writing.emits_eq`).  It has the strobes that it has to have (`Writing.strobes`),
and the length counts its bytes (`Writing.toNat_lengthNext`).  What comes then is the next
word (`Writing.more`), the next burst (`Writing.burst_done`), the rest of the burst
(`Writing.finish`), the rest of the frame (`Writing.drop`), or nothing.
-/

namespace AxisSystolic

open Mem Sync

variable {p : AxiDmaParams}

namespace WrControl

variable {s : WrControl p} {i : WrControlIn p} {d : WrDesc p} {fr : List (WrAxis p)}
  {bs : List AxiBurst}

/-- The beats of the frame after this cycle. -/
def beatsNext (fr : List (WrAxis p)) (s : WrControl p) (i : WrControlIn p) : List (WrAxis p) :=
  fr ++ (s.beatTaken i).toList

theorem beatsNext_of_takes (ht : s.takes i = true) : beatsNext fr s i = fr ++ [i.beat] := by
  rw [beatsNext, beatTaken, if_pos ht]
  rfl

theorem beatsNext_of_not_takes (ht : s.takes i = false) : beatsNext fr s i = fr := by
  rw [beatsNext, beatTaken, if_neg (by rw [ht]; exact Bool.false_ne_true)]
  exact List.append_nil _

theorem length_rest_pos (hop : s.opWordCount ≠ 0) :
    0 < (s.restBursts.flatMap p.words).length := by
  rw [restBursts, if_neg hop, EngineParams.transfer_eq, List.flatMap_cons, List.length_append,
    AxisSystolic.length_words]
  omega

namespace Writing

variable (h : Writing d fr bs s)

include h

/-! ### The place of the word -/

theorem length_rest : (bs.flatMap p.words).length + (s.restBursts.flatMap p.words).length
    = d.lastWord + 1 := by
  rw [← List.length_append, ← List.flatMap_append, ← h.bursts, WrDesc.length_words h.fits]

theorem op_iff : s.opWordCount = 0 ↔ (bs.flatMap p.words).length = d.lastWord + 1 := by
  have hsum := h.length_rest
  constructor
  · intro h0
    rw [restBursts, if_pos h0] at hsum
    exact hsum
  · intro hall
    by_contra hop
    have := length_rest_pos (p := p) hop
    omega

theorem place : Emits.Place d fr.length s := by
  have hwords := h.words
  have hsum := h.length_rest
  refine ⟨h.fits, h.lastOffset, h.mask, by omega, ?_, h.transfer⟩
  rw [Bool.beq_eq_decide_eq, h.last, ← Bool.decide_and]
  refine decide_eq_decide.mpr ?_
  rw [h.op_iff]
  omega

/-! ### A word goes out -/

theorem takes_of_ended (he : frameEnded fr = true) : s.takes i = false := by
  rw [takes, h.tready he]
  rfl

/-- A word goes out with each beat, and when the frame has ended. -/
theorem emits_eq : s.emits i = (frameEnded fr || s.takes i) := by
  cases he : frameEnded fr with
  | true =>
    have hextra : s.extraCycle = true := h.extra.trans he
    have hflush : s.flushSave = false := by
      rw [flushSave, h.state]
      rfl
    rw [emits, shiftInputTready, h.zero_of_ended he, if_neg Bool.false_ne_true, hextra, if_pos rfl,
      hflush]
    exact Bool.or_true _
  | false =>
    have hextra : s.extraCycle = false := h.extra.trans he
    have hactive : (!s.inputActive && !s.lastTransfer) = false := by
      by_cases hop : s.opWordCount = 0
      · rw [h.transfer, hop, beq_self_eq_true]
        exact Bool.and_false _
      · rw [(h.input he hop).1]
        rfl
    rw [emits, hactive, shiftTvalid, hextra, Bool.and_false, Bool.false_or, Bool.or_false,
      Bool.false_or]
    cases ht : s.takes i with
    | true =>
      rw [takes] at ht
      rw [ht]
      rfl
    | false =>
      have hready : s.shiftInputTready i = true :=
        shiftInputTready_of_no_end hextra (by rw [ht, Bool.and_false])
      rw [takes] at ht
      rw [ht, hready]
      rfl

theorem frame_next (hb : ∀ b ∈ s.beatTaken i, WrAxis.Whole b) : Frame (beatsNext fr s i) := by
  cases ht : s.takes i with
  | false =>
    rw [beatsNext_of_not_takes ht]
    exact h.frame
  | true =>
    have he : frameEnded fr = false := by
      by_contra he
      rw [h.takes_of_ended (eq_true_of_ne_false he)] at ht
      exact Bool.false_ne_true ht
    rw [beatsNext_of_takes ht]
    exact h.frame.append he (hb _ (by rw [beatTaken, if_pos ht]; rfl))

theorem emits_word (hm : s.emits i = true) (hb : ∀ b ∈ s.beatTaken i, WrAxis.Whole b) :
    Emits d fr.length (frameBytes (beatsNext fr s i)) (frameEnded (beatsNext fr s i)) s i := by
  rw [h.emits_eq] at hm
  cases he : frameEnded fr with
  | true =>
    rw [beatsNext_of_not_takes (h.takes_of_ended he), he]
    exact h.emits_extra he
  | false =>
    have ht : s.takes i = true := by rwa [he, Bool.false_or] at hm
    rw [beatsNext_of_takes ht, frameEnded_append]
    exact h.emits he (hb _ (by rw [beatTaken, if_pos ht]; rfl))

/-- A word that does not end the frame goes out with a beat. -/
theorem takes_of_more (hm : s.emits i = true) (ht : s.shiftTlast i = false) :
    frameEnded fr = false ∧ s.takes i = true := by
  have he : frameEnded fr = false := by
    by_contra he
    rw [h.shiftTlast_extra (eq_true_of_ne_false he)] at ht
    exact Bool.false_ne_true ht.symm
  refine ⟨he, ?_⟩
  rwa [h.emits_eq, he, Bool.false_or] at hm

/-! ### Its strobes and its length -/

theorem length_next_pos (hm : s.emits i = true) (hb : ∀ b ∈ s.beatTaken i, WrAxis.Whole b) :
    0 < (frameBytes (beatsNext fr s i)).length := by
  refine (h.frame_next hb).length_pos ?_
  rw [h.emits_eq] at hm
  rintro hnil
  cases ht : s.takes i with
  | true =>
    rw [beatsNext_of_takes ht] at hnil
    exact absurd hnil (by simp)
  | false =>
    rw [beatsNext_of_not_takes ht] at hnil
    rw [hnil, ht] at hm
    exact absurd hm Bool.false_ne_true

/-- They are those of what is to be written, if a frame that has ended suits the descriptor. -/
theorem strobes (hm : s.emits i = true) (hb : ∀ b ∈ s.beatTaken i, WrAxis.Whole b)
    (hsuit : frameEnded (beatsNext fr s i) = true → d.Suits (beatsNext fr s i)) :
    Emits.Strobes d fr.length (frameBytes (beatsNext fr s i)) s i := by
  have hword := h.emits_word hm hb
  have hpos := h.length_next_pos hm hb
  refine hword.strobes h.place ?_
  intro he hle hk
  rcases hsuit he with hlen | hlong | ⟨hshort | hend, _⟩
  · exact Or.inl hlen
  · have hnext : (d.lastWord + 1) * p.strbWidth < _ := (WrDesc.le_frameWord hpos).mp hlong
    rw [hk] at hle
    omega
  · have := (WrDesc.le_frameWord hpos).mpr hword.begun
    omega
  · exact Or.inr hend

/-- The bytes up to the end of the word are counted. -/
theorem toNat_lengthNext (hm : s.emits i = true) (hb : ∀ b ∈ s.beatTaken i, WrAxis.Whole b)
    (hs : Emits.Strobes d fr.length (frameBytes (beatsNext fr s i)) s i) :
    (s.lengthNext i).toNat = fr.length * p.strbWidth
      + Emits.lanesEnd d fr.length (frameBytes (beatsNext fr s i)) - d.off := by
  have hoff := WrDesc.off_lt (d := d)
  have hW : p.strbWidth ≤ 128 := EngineParams.strbWidth_le
  have hlow := (WrDesc.le_lastWord h.fits).mp h.place.le
  have hbegun := (h.emits_word hm hb).begun
  have hlen := d.len.isLt
  have hsize := hs.size
  have hlength := h.length
  have hoffset : (s.offset.setWidth 32).toNat = d.off := by
    rw [BitVec.toNat_setWidth, h.offset]
    exact Nat.mod_eq_of_lt (by omega)
  rw [Emits.lanesEnd] at hsize ⊢
  rw [lengthNext, BitVec.toNat_add, h.first, hlength]
  by_cases h0 : fr.length = 0
  · rw [h0, Nat.zero_mul] at hsize hbegun hlow ⊢
    have hle : s.offset.setWidth 32 ≤ s.size i := by
      rw [BitVec.le_def, hoffset, hsize]
      omega
    rw [decide_eq_true rfl, if_pos rfl, BitVec.toNat_sub_of_le hle, hsize, hoffset,
      Nat.mod_eq_of_lt]
    · omega
    · omega
  · have hone : p.strbWidth ≤ fr.length * p.strbWidth :=
      Nat.le_mul_of_pos_left _ (Nat.pos_of_ne_zero h0)
    rw [decide_eq_false h0, if_neg Bool.false_ne_true, hsize, Nat.mod_eq_of_lt]
    · omega
    · omega

/-- What goes out, as far as the memory can see it. -/
theorem pushed_eq (hm : s.emits i = true) (hb : ∀ b ∈ s.beatTaken i, WrAxis.Whole b)
    (hs : Emits.Strobes d fr.length (frameBytes (beatsNext fr s i)) s i) :
    (s.pushed i).map WrBeat.out
      = some (lanesAt p.strbWidth d.off (d.payload (beatsNext fr s i)) fr.length,
          s.outputLastCycle) := by
  rw [pushed, h.state]
  simp only [hm, if_true, Option.map_some, WrBeat.out]
  rw [(h.emits_word hm hb).lanes_eq hs]
  rfl

/-! ### What comes then -/

theorem saves_more (hm : s.emits i = true) (ht : s.shiftTlast i = false)
    (hb : ∀ b ∈ s.beatTaken i, WrAxis.Whole b) : Saves d (beatsNext fr s i) (s.step i) := by
  obtain ⟨he, htakes⟩ := h.takes_of_more hm ht
  have hstore : s.stores i = true := by
    rw [stores, h.state]
    exact Bool.and_eq_true_iff.mpr ⟨hm, htakes⟩
  have hbase := h.base_of_store he (hb _ (by rw [beatTaken, if_pos htakes]; rfl))
    (by simp [h.state]) hstore ht
  rw [beatsNext_of_takes htakes]
  refine hbase.congr ?_ ?_ ?_ ?_ ?_ ?_ <;> simp [step, h.state, hm]

/-- Within the descriptor the registers go on to the next word. -/
theorem holds_more (hm : s.emits i = true) (ht : s.shiftTlast i = false)
    (hb : ∀ b ∈ s.beatTaken i, WrAxis.Whole b)
    (hs : Emits.Strobes d fr.length (frameBytes (beatsNext fr s i)) s i)
    (hk : fr.length ≠ d.lastWord) : Holds d (beatsNext fr s i) (s.step i) := by
  have hoff := WrDesc.off_lt (d := d)
  obtain ⟨_, htakes⟩ := h.takes_of_more hm ht
  have hlong := (h.emits_word hm hb).full_of_more ht
  have hfull := h.place.full fun heq => absurd heq hk
  have hcount : (beatsNext fr s i).length = fr.length + 1 := by
    rw [beatsNext_of_takes htakes, List.length_append, List.length_singleton]
  refine ⟨h.saves_more hm ht hb, h.fits, ?_, ?_, ?_, ?_, ?_, ?_⟩
  · simpa [step, h.state, hm, base] using h.lastOffset
  · intro j hj
    have hmask : (s.step i).strbOffsetMask = BitVec.allOnes _ := by simp [step, h.state, hm]
    rw [hmask, BitVec.getLsbD_allOnes, hcount, Nat.succ_mul fr.length]
    exact decide_eq_decide.mpr (by omega)
  · rw [hcount, decide_eq_false (Nat.succ_ne_zero _)]
    simp [step, h.state, hm]
  · simpa [step, h.state, hm, base] using h.tag
  · rw [beatsNext_of_takes htakes]
    simp [step, h.state, hm, sideNext, htakes]
  · have hlength : (s.step i).length = s.lengthNext i := by simp [step, h.state, hm]
    rw [Nat.succ_mul fr.length] at hlong hfull
    rw [hlength, h.toNat_lengthNext hm hb hs, hcount, Emits.lanesEnd, Nat.succ_mul fr.length]
    omega

/-- The next word of the burst. -/
theorem more (hm : s.emits i = true) (ht : s.shiftTlast i = false)
    (hb : ∀ b ∈ s.beatTaken i, WrAxis.Whole b)
    (hs : Emits.Strobes d fr.length (frameBytes (beatsNext fr s i)) s i)
    (hl : s.outputLastCycle = false) : Writing d (beatsNext fr s i) bs (s.step i) := by
  obtain ⟨he, htakes⟩ := h.takes_of_more hm ht
  have hout : (s.step i).outputCycleCount = s.outputCountNext := by simp [step, h.state, hm]
  have hcount : (beatsNext fr s i).length = fr.length + 1 := by
    rw [beatsNext_of_takes htakes, List.length_append, List.length_singleton]
  have hop : (s.step i).opWordCount = s.opWordCount := by simp [step, h.state, hm, base]
  have haddr : (s.step i).addr = s.addr := by simp [step, h.state, hm, base]
  have hnext : Counts bs (fr.length + 1) (s.step i) :=
    h.toCounts.next hl hout (by simp [step, h.state, hm])
  have hwords := hnext.words
  have hsum := h.length_rest
  rw [← hcount] at hnext
  refine ⟨h.holds_more hm ht hb hs (by omega), hnext, ?_, ?_, ?_, ?_, ?_, ?_⟩
  · simp [step, h.state, hm, ht, hl]
  · intro he'
    rw [beatsNext_of_takes htakes, frameEnded_append] at he'
    have hsaves := h.saves_more hm ht hb
    rw [beatsNext_of_takes htakes] at hsaves
    have hready := hsaves.tready_of_ended (s := s) (by simp [step, h.state, hm, base])
      (h.extra.trans he) he' htakes
    simp [step, h.state, hm, ht, hl, hready]
  · rw [h.bursts, restBursts, restBursts, hop, haddr]
  · have hlast : (s.step i).lastTransfer = s.lastTransfer := by simp [step, h.state, hm, base]
    rw [hlast, hop, h.transfer]
  · rw [hop, haddr]
    exact h.next
  · intro hend hmore
    rw [beatsNext_of_takes htakes, frameEnded_append] at hend
    rw [hop] at hmore
    obtain ⟨hactive, heq⟩ := h.input he hmore
    have hlt : 0 < s.inputCycleCount := by
      rw [h.last, decide_eq_false_iff_not] at hl
      rw [heq, BitVec.lt_def]
      exact Nat.pos_of_ne_zero hl
    rw [hout, outputCountNext, ← heq]
    simp [step, h.state, hm, hend, inputActiveNext, inputCountNext, hactive]
    exact hlt

/-- The next burst of the descriptor. -/
theorem burst_done (hm : s.emits i = true) (ht : s.shiftTlast i = false)
    (hb : ∀ b ∈ s.beatTaken i, WrAxis.Whole b)
    (hs : Emits.Strobes d fr.length (frameBytes (beatsNext fr s i)) s i)
    (hl : s.outputLastCycle = true) (hop : s.opWordCount ≠ 0)
    (hsuit : frameEnded (beatsNext fr s i) = true → d.Suits (beatsNext fr s i)) :
    Starting d (beatsNext fr s i) bs (s.step i) := by
  obtain ⟨_, htakes⟩ := h.takes_of_more hm ht
  have hcount : (beatsNext fr s i).length = fr.length + 1 := by
    rw [beatsNext_of_takes htakes, List.length_append, List.length_singleton]
  have hop' : (s.step i).opWordCount = s.opWordCount := by simp [step, h.state, hm, base]
  have haddr : (s.step i).addr = s.addr := by simp [step, h.state, hm, base]
  have hwords := h.last_iff.mp hl
  have hsum := h.length_rest
  have hrest := length_rest_pos (p := p) hop
  obtain ⟨hdvd, hbytes, hle⟩ := h.next hop
  refine ⟨h.holds_more hm ht hb hs (by omega), ?_, ?_, ?_, ?_, ?_, ?_, ?_, ?_, ?_⟩
  · simp [step, h.state, hm, ht, hl]
    exact hop
  · simp [step, h.state, hm, ht, hl]
    exact fun h0 => absurd h0 hop
  · rw [hop', haddr, h.bursts, restBursts, if_neg hop]
  · rw [hcount, hwords]
  · rw [hop']
    exact hop
  · rw [haddr, hop']
    exact hle
  · intro h0
    omega
  · rw [haddr, hop', hcount, hwords]
    exact fun _ => ⟨hdvd, hbytes⟩
  · intro he
    -- the frame has a byte for the next word, and a burst begins with that
    have hoff := WrDesc.off_lt (d := d)
    have hpos := h.length_next_pos hm hb
    have hlong := (h.emits_word hm hb).full_of_more ht
    have hlen := (h.frame_next hb).length_le
    have hleft := (h.saves_more hm ht hb).left he
    rw [hcount, Nat.succ_mul] at hlen hleft
    have hword : d.frameWord (beatsNext fr s i) = fr.length + 1 := by
      have hge := (WrDesc.le_frameWord (d := d) hpos (k := fr.length + 1)).mpr
        (by rw [Nat.succ_mul]; exact hleft)
      have hlt := (WrDesc.le_frameWord (d := d) hpos (k := fr.length + 1 + 1)).not
      rw [Nat.succ_mul, Nat.succ_mul] at hlt
      omega
    rcases hsuit he with heq | hlast | ⟨_, hno⟩
    · exact heq
    · omega
    · refine absurd ⟨?_, bs, ⟨s.restBursts, h.bursts.symm⟩, ?_⟩ hno
      · rw [hword, Nat.div_lt_iff_lt_mul EngineParams.strbWidth_pos, Nat.succ_mul]
        omega
      · rw [hword, hwords]

/-- The rest of the burst, after the end of the frame. -/
theorem finish (hm : s.emits i = true) (ht : s.shiftTlast i = true)
    (hl : s.outputLastCycle = false) : Finishing bs (fr.length + 1) (s.step i) := by
  refine ⟨h.toCounts.next hl ?_ ?_, ?_, ?_⟩
  · simp [step, h.state, hm]
  · simp [step, h.state, hm]
  · simp [step, h.state, hm, ht, hl]
  · simp [step, h.state, hm, ht]

/-- The rest of the frame, after the end of the descriptor. -/
theorem drop (hm : s.emits i = true) (ht : s.shiftTlast i = false)
    (hb : ∀ b ∈ s.beatTaken i, WrAxis.Whole b) (hl : s.outputLastCycle = true)
    (hop : s.opWordCount = 0) : Dropping d (beatsNext fr s i) (s.step i) := by
  obtain ⟨he, htakes⟩ := h.takes_of_more hm ht
  have hsaves := h.saves_more hm ht hb
  have hextra : s.extraCycle = false := h.extra.trans he
  refine ⟨hsaves, by simp [step, h.state, hm, ht, hl, hop], ?_⟩
  have htready : (s.step i).tready = s.shiftInputTready i := by
    simp [step, h.state, hm, ht, hl, hop]
  rw [beatsNext_of_takes htakes] at hsaves ⊢
  rw [htready]
  exact hsaves.shiftInputTready_eq (by simp [step, h.state, hm, base]) hextra htakes

/-- Nothing goes out, and nothing changes. -/
theorem wait (hm : s.emits i = false) : Writing d fr bs (s.step i) := by
  have hno := hm
  rw [h.emits_eq, Bool.or_eq_false_iff] at hno
  have hstore : s.stores i = false := by
    rw [stores, h.state]
    exact Bool.and_eq_false_iff.mpr (Or.inl hm)
  have hbase := h.base_of_no_store (i := i) (by simp [h.state]) hstore
  have hstep : ∃ r, s.step i = { s.base i with tready := r } := by
    refine ⟨i.wreadyInt && (s.lastTransfer || s.inputActive) && s.shiftInputTready i, ?_⟩
    simp [step, h.state, hm]
  obtain ⟨r, hstep⟩ := hstep
  rw [hstep]
  refine ⟨⟨hbase.congr rfl rfl rfl rfl rfl rfl, h.fits, h.lastOffset, h.mask, h.first, h.tag,
    h.side, h.length⟩, ⟨h.last, h.words, h.burst⟩, h.state, ?_, h.bursts, h.transfer, h.next,
    h.input⟩
  rw [hno.1]
  exact fun he => absurd he Bool.false_ne_true

end Writing

/-! ### The rest of a frame -/

namespace Dropping

variable (h : Dropping d fr s)

include h

/-- The end of the frame is held, and nothing more is taken. -/
theorem ended (he : frameEnded fr = true) :
    s.takes i = false ∧ s.shiftTvalid i = true ∧ s.shiftTlast i = true := by
  have hextra : s.extraCycle = true := h.extra.trans he
  refine ⟨?_, ?_, h.shiftTlast_extra he⟩
  · rw [takes, h.tready, he]
    rfl
  · rw [shiftTvalid, h.zero_of_ended he, hextra]
    rfl

theorem takes_of_open (he : frameEnded fr = false) :
    s.takes i = i.valid ∧ s.shiftTvalid i = i.valid := by
  have hextra : s.extraCycle = false := h.extra.trans he
  refine ⟨?_, ?_⟩
  · rw [takes, h.tready, he]
    rfl
  · rw [shiftTvalid, hextra, Bool.and_false, Bool.false_or]

/-- No beat comes. -/
theorem wait (he : frameEnded fr = false) (hvalid : i.valid = false) :
    Dropping d fr (s.step i) := by
  obtain ⟨htakes, hv⟩ := h.takes_of_open (i := i) he
  rw [hvalid] at htakes hv
  have hextra : s.extraCycle = false := h.extra.trans he
  have hstore : s.stores i = false := by
    rw [stores, h.state]
    exact Bool.and_eq_false_iff.mpr (Or.inl hv)
  have hbase := h.base_of_no_store (i := i) (by simp [h.state]) hstore
  have hinput := shiftInputTready_of_no_end hextra (i := i) (by rw [htakes, Bool.and_false])
  refine ⟨?_, ?_, ?_⟩
  · refine hbase.congr ?_ ?_ ?_ ?_ ?_ ?_ <;> simp [step, h.state]
  · simp [step, h.state, hv]
  · simp [step, h.state, hv, hinput, he]

/-- A beat comes, and there is more to drop. -/
theorem next (he : frameEnded fr = false) (hvalid : i.valid = true) (hb : WrAxis.Whole i.beat)
    (ht : s.shiftTlast i = false) : Dropping d (fr ++ [i.beat]) (s.step i) := by
  obtain ⟨htakes, hv⟩ := h.takes_of_open (i := i) he
  rw [hvalid] at htakes hv
  have hextra : s.extraCycle = false := h.extra.trans he
  have hstore : s.stores i = true := by
    rw [stores, h.state]
    exact Bool.and_eq_true_iff.mpr ⟨hv, htakes⟩
  have hsaves : Saves d (fr ++ [i.beat]) (s.step i) := by
    refine (h.base_of_store he hb (by simp [h.state]) hstore ht).congr ?_ ?_ ?_ ?_ ?_ ?_ <;>
      simp [step, h.state]
  have htready : (s.step i).tready = s.shiftInputTready i := by simp [step, h.state, ht]
  refine ⟨hsaves, by simp [step, h.state, ht], ?_⟩
  rw [htready]
  exact hsaves.shiftInputTready_eq (by simp [step, h.state, base]) hextra htakes

end Dropping

end WrControl

end AxisSystolic
