import AxisSystolic.Engine.WriteControl
import AxisSystolic.Mem.Strobes

/-!
# What a write descriptor and its frame ask for

A descriptor takes one frame of the stream, and writes its bytes, at most as many as the
descriptor has (`payload`), from its address on.  Word `k` of the descriptor is the one
`k` behind the word that its first byte lies in; the last one that the descriptor has is
`lastWord`, and the last one that the frame would have is `frameWord`.

The bursts that are requested are those of the descriptor, as far as they are reached
(`reach`).

There are frames that the engine does not get right, and `Suits` leaves them out: a frame
that ends in the last word of the descriptor, but not with it, is cut in the wrong place,
and one whose last byte is alone in the first word of a burst lets the engine take a beat
of the next frame.
-/

namespace AxisSystolic

open Mem

variable {p : AxiDmaParams}

/-! ### Beats -/

namespace WrAxis

/-- The bytes of a beat. -/
def bytes (b : WrAxis p) : List (BitVec 8) := kept 8 p.strbWidth b.tdata b.tkeep

/-- The lowest bytes are kept, and all of them unless the frame ends. -/
structure Whole (b : WrAxis p) : Prop where
  keep : ∃ n, 0 < n ∧ n ≤ p.strbWidth ∧ b.tkeep = BitVec.allOnes _ >>> (p.strbWidth - n)
  full : b.tlast = false → b.tkeep = BitVec.allOnes _

variable {b : WrAxis p}

theorem Whole.exists_low (h : Whole b) : ∃ n, 0 < n ∧ n ≤ p.strbWidth ∧
    bytes b = toBytes n b.tdata ∧ ∀ j < p.strbWidth, b.tkeep.getLsbD j = decide (j < n) := by
  obtain ⟨n, hpos, hle, hkeep⟩ := h.keep
  refine ⟨n, hpos, hle, ?_, ?_⟩
  · rw [bytes, hkeep, kept_low _ hle]
  · intro j hj
    rw [hkeep, BitVec.getLsbD_ushiftRight, BitVec.getLsbD_allOnes]
    exact decide_eq_decide.mpr (by omega)

theorem Whole.length_pos (h : Whole b) : 0 < (bytes b).length := by
  obtain ⟨n, hpos, _, hbytes, _⟩ := h.exists_low
  rw [hbytes, length_toBytes]
  exact hpos

theorem Whole.length_le (h : Whole b) : (bytes b).length ≤ p.strbWidth := by
  obtain ⟨n, _, hle, hbytes, _⟩ := h.exists_low
  rw [hbytes, length_toBytes]
  exact hle

theorem Whole.tkeep_bit (h : Whole b) {j : ℕ} (hj : j < p.strbWidth) :
    b.tkeep.getLsbD j = decide (j < (bytes b).length) := by
  obtain ⟨n, _, _, hbytes, hbits⟩ := h.exists_low
  rw [hbits j hj, hbytes, length_toBytes]

theorem Whole.getElem?_bytes (h : Whole b) {j : ℕ} (hj : j < (bytes b).length) :
    (bytes b)[j]? = some (byteOf b.tdata j) := by
  obtain ⟨n, _, _, hbytes, _⟩ := h.exists_low
  rw [hbytes, length_toBytes] at hj
  rw [hbytes, toBytes, List.getElem?_map, List.getElem?_range hj]
  rfl

theorem Whole.length_of_more (h : Whole b) (hlast : b.tlast = false) :
    (bytes b).length = p.strbWidth := by
  rw [bytes, h.full hlast, kept_allOnes, length_toBytes]

end WrAxis

/-- What a beat to the memory says: the lanes with a strobe, and whether it ends its burst. -/
def WrBeat.out (b : WrBeat p) : List (Option (BitVec 8)) × Bool :=
  (strobed p.strbWidth b.data b.strb, b.last)

/-- The bytes of a frame. -/
def frameBytes (fr : List (WrAxis p)) : List (BitVec 8) := fr.flatMap WrAxis.bytes

theorem frameBytes_append (fr fr' : List (WrAxis p)) :
    frameBytes (fr ++ fr') = frameBytes fr ++ frameBytes fr' := List.flatMap_append

theorem frameBytes_singleton (b : WrAxis p) : frameBytes [b] = WrAxis.bytes b :=
  List.flatMap_singleton ..

/-- The bytes of beats none of which ends the frame. -/
theorem length_frameBytes {fr : List (WrAxis p)} (hw : ∀ b ∈ fr, WrAxis.Whole b)
    (hmore : ∀ b ∈ fr, b.tlast = false) : (frameBytes fr).length = fr.length * p.strbWidth := by
  induction fr with
  | nil => exact (Nat.zero_mul _).symm
  | cons b fr ih =>
    have hb := (hw b List.mem_cons_self).length_of_more (hmore b List.mem_cons_self)
    rw [← List.singleton_append, frameBytes_append, frameBytes_singleton, List.length_append, hb,
      ih (fun c hc => hw c (List.mem_cons_of_mem _ hc))
        (fun c hc => hmore c (List.mem_cons_of_mem _ hc)), List.length_append,
      List.length_singleton, Nat.add_mul, Nat.one_mul]

/-! ### Descriptors -/

namespace WrDesc

variable (d : WrDesc p)

/-- The first byte, from the beginning of its word. -/
def off : ℕ := d.addr.toNat % p.strbWidth

/-- The bursts that it asks for, if its frame is long enough. -/
def bursts : List AxiBurst := p.transfer d.addr d.len

/-- The last word of the descriptor. -/
def lastWord : ℕ := (d.len.toNat + d.off - 1) / p.strbWidth

/-- What is written for a frame. -/
def payload (fr : List (WrAxis p)) : List (BitVec 8) := (frameBytes fr).take d.len.toNat

/-- The last word that the frame has bytes for. -/
def frameWord (fr : List (WrAxis p)) : ℕ := ((frameBytes fr).length + d.off - 1) / p.strbWidth

/-- There is something to transfer, within the address space. -/
structure Fits : Prop where
  len : d.len ≠ 0
  addr : d.addr.toNat + d.len.toNat ≤ 2 ^ 32

/-- The last byte of the frame does not fit into the word of its beat, and a burst begins
with the next word. -/
def Splits (fr : List (WrAxis p)) : Prop :=
  ((frameBytes fr).length - 1) / p.strbWidth < d.frameWord fr ∧
    ∃ bs, bs <+: d.bursts ∧ (bs.flatMap p.words).length = d.frameWord fr

/-- The frame is as long as the descriptor, or goes on after its last word, or ends before
it and not in a way that splits it. -/
def Suits (fr : List (WrAxis p)) : Prop :=
  (frameBytes fr).length = d.len.toNat ∨ d.lastWord < d.frameWord fr ∨
    (d.frameWord fr < d.lastWord ∨ (d.len.toNat + d.off) % p.strbWidth = 0) ∧ ¬d.Splits fr

variable {d}

theorem off_lt : d.off < p.strbWidth := Nat.mod_lt _ EngineParams.strbWidth_pos

theorem Fits.len_pos (h : d.Fits) : 0 < d.len.toNat :=
  Nat.pos_of_ne_zero fun h0 => h.len (BitVec.eq_of_toNat_eq h0)

theorem le_lastWord (h : d.Fits) {k : ℕ} :
    k ≤ d.lastWord ↔ k * p.strbWidth < d.len.toNat + d.off := by
  have := h.len_pos
  rw [lastWord, Nat.le_div_iff_mul_le EngineParams.strbWidth_pos]
  omega

theorem le_frameWord {fr : List (WrAxis p)} (h : 0 < (frameBytes fr).length) {k : ℕ} :
    k ≤ d.frameWord fr ↔ k * p.strbWidth < (frameBytes fr).length + d.off := by
  rw [frameWord, Nat.le_div_iff_mul_le EngineParams.strbWidth_pos]
  omega

theorem length_words (h : d.Fits) : (d.bursts.flatMap p.words).length = d.lastWord + 1 := by
  rw [bursts, EngineParams.transfer_words h.len h.addr, List.length_range']
  rfl

theorem words_eq (h : d.Fits) : d.bursts.flatMap p.words
    = List.range' (d.addr.toNat / p.strbWidth) (d.lastWord + 1) :=
  EngineParams.transfer_words h.len h.addr

end WrDesc

/-! ### Bursts -/

/-- The bursts up to the one that has word `x`. -/
def reach : ℕ → List AxiBurst → List AxiBurst
  | _, [] => []
  | x, b :: bs => b :: if x ≤ b.len.toNat then [] else reach (x - (b.len.toNat + 1)) bs

theorem reach_le (x : ℕ) (bs : List AxiBurst) : reach x bs <+: bs := by
  induction bs generalizing x with
  | nil => exact List.prefix_refl _
  | cons b bs ih =>
    rw [reach, List.cons_prefix_cons]
    refine ⟨rfl, ?_⟩
    split
    · exact List.nil_prefix
    · exact ih _

/-- The words of a burst are one more than it says. -/
theorem length_words (p : EngineParams) (b : AxiBurst) : (p.words b).length = b.len.toNat + 1 :=
  List.length_range'

theorem reach_append {p : EngineParams} {x : ℕ} {pre : List AxiBurst} {b : AxiBurst}
    (hpre : (pre.flatMap p.words).length ≤ x)
    (hx : x < ((pre ++ [b]).flatMap p.words).length) (more : List AxiBurst) :
    reach x (pre ++ b :: more) = pre ++ [b] := by
  induction pre generalizing x with
  | nil =>
    rw [List.nil_append, List.flatMap_singleton, length_words] at hx
    rw [List.nil_append, reach, if_pos (Nat.le_of_lt_succ hx)]
    rfl
  | cons c pre ih =>
    rw [List.flatMap_cons, List.length_append, length_words] at hpre
    rw [List.cons_append, List.flatMap_cons, List.length_append, length_words] at hx
    rw [List.cons_append, reach, if_neg (by omega), ih (by omega) (by omega)]
    rfl

/-- Which of the beats of some bursts are the last ones. -/
def lastMarks (bs : List AxiBurst) : List Bool :=
  bs.flatMap fun b => List.replicate b.len.toNat false ++ [true]

theorem lastMarks_append (bs bs' : List AxiBurst) :
    lastMarks (bs ++ bs') = lastMarks bs ++ lastMarks bs' := List.flatMap_append

theorem length_lastMarks (p : EngineParams) (bs : List AxiBurst) :
    (lastMarks bs).length = (bs.flatMap p.words).length := by
  induction bs with
  | nil => rfl
  | cons b bs ih =>
    rw [← List.singleton_append, lastMarks_append, List.length_append, ih, List.flatMap_append,
      List.length_append, List.flatMap_singleton, length_words, lastMarks, List.flatMap_singleton,
      List.length_append, List.length_replicate]
    rfl

/-- The beats of the last burst, of which `n` are still to come. -/
theorem getElem?_lastMarks {p : EngineParams} {pre : List AxiBurst} {b : AxiBurst} {k n : ℕ}
    (hpre : (pre.flatMap p.words).length ≤ k)
    (hk : k + (n + 1) = ((pre ++ [b]).flatMap p.words).length) :
    (lastMarks (pre ++ [b]))[k]? = some (decide (n = 0)) := by
  rw [List.flatMap_append, List.length_append, List.flatMap_singleton, length_words] at hk
  rw [lastMarks_append, List.getElem?_append_right (by rw [length_lastMarks p]; exact hpre),
    length_lastMarks p, lastMarks, List.flatMap_singleton]
  rcases Nat.eq_zero_or_pos n with rfl | hn
  · have hend : k - (pre.flatMap p.words).length = b.len.toNat := by omega
    rw [hend, List.getElem?_append_right (by rw [List.length_replicate]), List.length_replicate,
      Nat.sub_self]
    rfl
  · have hlt : k - (pre.flatMap p.words).length < b.len.toNat := by omega
    rw [List.getElem?_append_left (by rw [List.length_replicate]; exact hlt),
      List.getElem?_replicate, if_pos hlt, decide_eq_false (by omega)]

end AxisSystolic
