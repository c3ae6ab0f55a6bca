import AxisSystolic.Engine.ReadRequest
import AxisSystolic.Mem.Align
import AxisSystolic.Sync.Frames

/-!
# The frame of a read descriptor

A descriptor asks for bytes that begin anywhere in a word and end anywhere in one.  They
are given out as one frame, whose beats are full but for the last one.  Of the words that
are read, `inWords` of them, the frame has `outBeats` beats: as many, or one less
(`Fits.outBeats_le`).

What the receiving part is told in `RdCmd` are these numbers and the offset
(`Fits.toNat_inputCycleCount` and the lemmas beside it).  With the words of a memory, the
frame has the bytes of the memory (`Fits.payload_words`).
-/

namespace AxisSystolic

open Sync Mem

variable {p : AxiDmaParams}

/-- What a beat of the stream says. -/
structure RdOut (p : AxiDmaParams) where
  bytes : List (BitVec 8)
  keep : BitVec p.strbWidth
  last : Bool
  side : AxisSide p.side

abbrev RdBeat (p : AxiDmaParams) : Type := AxisBeat (8 * p.strbWidth) p.strbWidth p.side

def RdBeat.out (b : RdBeat p) : RdOut p :=
  ⟨kept 8 p.strbWidth b.tdata b.tkeep, b.tkeep, b.tlast, b.side⟩

namespace RdDesc

variable (d : RdDesc p)

/-- The first byte, from the beginning of its word. -/
def off : ℕ := d.addr.toNat % p.strbWidth

def inWords : ℕ := (d.len.toNat + d.off - 1) / p.strbWidth + 1

def outBeats : ℕ := (d.len.toNat - 1) / p.strbWidth + 1

/-- The bytes of the last beat. -/
def lastLen : ℕ :=
  if d.len.toNat % p.strbWidth = 0 then p.strbWidth else d.len.toNat % p.strbWidth

/-- The words that are read. -/
def words : List ℕ := List.range' (d.addr.toNat / p.strbWidth) d.inWords

/-- The bytes asked for, of the words that are read. -/
def payload (ws : List (BitVec (8 * p.strbWidth))) : List (BitVec 8) :=
  ((bytesOf ws).drop d.off).take d.len.toNat

/-- A beat of the frame: its lowest bytes are kept. -/
def out (b : List (BitVec 8) × Bool) : RdOut p :=
  ⟨b.1, BitVec.allOnes _ >>> (p.strbWidth - b.1.length), b.2, d.side⟩

/-- The frame, from the words that are read. -/
def frame (ws : List (BitVec (8 * p.strbWidth))) : List (RdOut p) :=
  (mark (beats p.strbWidth (d.payload ws))).map d.out

/-- There is something to transfer, within the address space. -/
structure Fits : Prop where
  len : d.len ≠ 0
  addr : d.addr.toNat + d.len.toNat ≤ 2 ^ 32

namespace Fits

variable {d} {ws : List (BitVec (8 * p.strbWidth))}

theorem len_pos (h : d.Fits) : 0 < d.len.toNat :=
  Nat.pos_of_ne_zero fun h0 => h.len (BitVec.eq_of_toNat_eq h0)

theorem off_lt : d.off < p.strbWidth := Nat.mod_lt _ EngineParams.strbWidth_pos

theorem len_add_off (h : d.Fits) : d.len.toNat + d.off ≤ 2 ^ 32 := by
  have := Nat.mod_le d.addr.toNat p.strbWidth
  have := h.addr
  rw [off]
  omega

theorem lastLen_le : d.lastLen ≤ p.strbWidth := by
  have := Nat.mod_lt d.len.toNat (EngineParams.strbWidth_pos (p := p.toEngineParams))
  rw [lastLen]
  split <;> omega

theorem lastLen_pos : 0 < d.lastLen := by
  have := EngineParams.strbWidth_pos (p := p.toEngineParams)
  rw [lastLen]
  split <;> omega

/-- All beats but the last are full. -/
theorem len_eq (h : d.Fits) : d.len.toNat = (d.outBeats - 1) * p.strbWidth + d.lastLen := by
  have hW := EngineParams.strbWidth_pos (p := p.toEngineParams)
  have hlen := h.len_pos
  have hdiv := Nat.div_add_mod d.len.toNat p.strbWidth
  rw [outBeats, Nat.add_sub_cancel, lastLen, Nat.mul_comm]
  by_cases hz : d.len.toNat % p.strbWidth = 0
  · rw [if_pos hz]
    obtain ⟨c, hc⟩ := Nat.dvd_of_mod_eq_zero hz
    obtain ⟨e, rfl⟩ : ∃ e, c = e + 1 := Nat.exists_eq_succ_of_ne_zero fun h0 => by
      rw [h0, Nat.mul_zero] at hc
      omega
    rw [hc, Nat.mul_succ, Nat.add_sub_assoc hW, Nat.mul_add_div hW, Nat.div_eq_of_lt (by omega),
      Nat.add_zero]
  · have hlt := Nat.mod_lt d.len.toNat hW
    have hsub : d.len.toNat - 1
        = p.strbWidth * (d.len.toNat / p.strbWidth) + (d.len.toNat % p.strbWidth - 1) := by omega
    have hrest : (d.len.toNat % p.strbWidth - 1) / p.strbWidth = 0 := Nat.div_eq_of_lt (by omega)
    have hcount : (d.len.toNat - 1) / p.strbWidth = d.len.toNat / p.strbWidth := by
      rw [hsub, Nat.mul_add_div hW, hrest, Nat.add_zero]
    rw [if_neg hz, hcount, hdiv]

/-- The words hold what is asked for. -/
theorem off_add_len_le (h : d.Fits) : d.off + d.len.toNat ≤ d.inWords * p.strbWidth := by
  have hlen := h.len_pos
  have hlt := Nat.lt_mul_div_succ (d.len.toNat + d.off - 1)
    (EngineParams.strbWidth_pos (p := p.toEngineParams))
  rw [inWords, Nat.mul_comm]
  omega

/-- The frame has as many beats as words are read, or one less. -/
theorem outBeats_le (h : d.Fits) : d.outBeats ≤ d.inWords ∧ d.inWords ≤ d.outBeats + 1 := by
  have hlen := h.len_pos
  have hoff := off_lt (d := d)
  have hW := EngineParams.strbWidth_pos (p := p.toEngineParams)
  refine ⟨Nat.succ_le_succ (Nat.div_le_div_right (by omega)), Nat.succ_le_succ ?_⟩
  rw [outBeats, ← Nat.add_div_right _ hW]
  exact Nat.div_le_div_right (by omega)

theorem inWords_of_aligned (hoff : d.off = 0) : d.inWords = d.outBeats := by
  rw [inWords, outBeats, hoff, Nat.add_zero d.len.toNat]

/-! ### What the receiving part is told -/

theorem toNat_lastCycleOffset : d.cmd.lastCycleOffset.toNat = d.len.toNat % p.strbWidth :=
  AxiDmaParams.toNat_offset_setWidth d.len

/-- The bytes that are shifted out are those in front of the offset, or a whole word. -/
theorem toNat_cmd_offset : d.cmd.offset.toNat = if d.off = 0 then 0 else p.strbWidth - d.off := by
  have hoff := off_lt (d := d)
  have hle : p.strbWidth ≤ 128 := EngineParams.strbWidth_le
  have hpow : 1 < p.strbWidth → 2 ^ p.offsetWidth = p.strbWidth := by
    intro h
    rw [EngineParams.offsetWidth, if_pos h, EngineParams.strbWidth]
  rw [cmd]
  by_cases hW : 1 < p.strbWidth
  · rw [if_pos hW, BitVec.toNat_setWidth, hpow hW, BitVec.toNat_sub, EngineParams.toNat_offset,
      BitVec.toNat_ofNat]
    rw [off] at hoff ⊢
    split
    · next hz =>
      have hfull : (2 ^ 32 - d.addr.toNat % p.strbWidth + p.strbWidth % 2 ^ 32) % 2 ^ 32
          = p.strbWidth := by omega
      rw [hfull, Nat.mod_self]
    · next hz =>
      have hpart : (2 ^ 32 - d.addr.toNat % p.strbWidth + p.strbWidth % 2 ^ 32) % 2 ^ 32
          = p.strbWidth - d.addr.toNat % p.strbWidth := by omega
      rw [hpart]
      exact Nat.mod_eq_of_lt (by omega)
  · rw [if_neg hW, if_pos (by omega)]
    rfl

theorem bubbleCycle_eq : d.cmd.bubbleCycle = decide (d.off ≠ 0) := by
  have hoff := off_lt (d := d)
  have hnat := toNat_cmd_offset (d := d)
  refine decide_eq_decide.mpr ?_
  rw [BitVec.lt_def]
  change 0 < d.cmd.offset.toNat ↔ _
  rw [hnat]
  split <;> omega

theorem toNat_inputCycleCount (h : d.Fits) : d.cmd.inputCycleCount.toNat + 1 = d.inWords := by
  have hcyc := EngineParams.toNat_cycles (p := p.toEngineParams) h.len h.len_add_off
  rw [EngineParams.cycles, BitVec.toNat_ushiftRight, Nat.shiftRight_eq_div_pow] at hcyc
  change (BitVec.setWidth _ (EngineParams.cycles _ _ _)).toNat + 1 = _
  rw [EngineParams.cycles, AxiDmaParams.toNat_cycles_setWidth, EngineParams.strbWidth, hcyc]
  rfl

theorem toNat_outputCycleCount (h : d.Fits) : d.cmd.outputCycleCount.toNat + 1 = d.outBeats := by
  have hpos := h.len_pos
  have hone : (d.len - 1).toNat = d.len.toNat - 1 := by
    exact BitVec.toNat_sub_of_le (show (1 : BitVec 32) ≤ d.len from BitVec.le_def.mpr hpos)
  change (BitVec.setWidth _ _).toNat + 1 = _
  rw [AxiDmaParams.toNat_cycles_setWidth, hone]
  rfl

/-! ### The frame -/

/-- The frame, beat by beat. -/
theorem frame_eq (h : d.Fits) (hws : ws.length = d.inWords) : d.frame ws
    = (List.range (d.outBeats - 1)).map
        (fun k => d.out (chunk p.strbWidth d.off k (bytesOf ws), false))
      ++ [d.out (((bytesOf ws).drop (d.off + (d.outBeats - 1) * p.strbWidth)).take d.lastLen,
        true)] := by
  have hfull : d.off + d.len.toNat ≤ (bytesOf ws).length := by
    rw [length_bytesOf, hws]
    exact h.off_add_len_le
  rw [frame, payload, beats_eq lastLen_pos lastLen_le h.len_eq hfull, mark_concat,
    List.map_append, List.map_map, List.map_map]
  rfl

/-- The words are those that the bursts go over. -/
theorem words_eq (h : d.Fits) : d.bursts.flatMap p.words = d.words :=
  EngineParams.transfer_words h.len h.addr

/-- **The words of a memory have the bytes that are asked for.** -/
theorem payload_words (h : d.Fits) (m : Memory) :
    d.payload (d.words.map fun x => word m (x * p.strbWidth) p.strbWidth)
      = bytes m d.addr.toNat d.len.toNat := by
  have haddr : d.addr.toNat / p.strbWidth * p.strbWidth + d.off = d.addr.toNat :=
    Nat.div_add_mod' _ _
  rw [payload, words, bytesOf_words, take_drop_bytes h.off_add_len_le, haddr]

end Fits

end RdDesc

end AxisSystolic
