import Mathlib.Data.BitVec
import Mathlib.Data.List.Range

/-!
# How a transfer is cut into bursts (`alex_axi_dma_rd.sv`, `alex_axi_dma_wr.sv`)

Both DMA engines cut a transfer in the same way: a burst ends where the transfer ends,
where a page of 4 KiB ends, or, if the longest burst is shorter than a page, where that
one ends.  An AXI burst reads or writes whole words, so it begins with the word that its
address lies in.

The bursts of a transfer are legal (`transfer_legal`): none crosses a page and none is
longer than `AXI_MAX_BURST_LEN`.  Together they go over the words of the transfer, each
of them once and in order (`transfer_words`).
-/

namespace AxisSystolic

/-- The parameters of the engines that decide on the bursts. -/
structure EngineParams where
  /-- `AXI_BURST_SIZE`, the logarithm of `AXI_STRB_WIDTH`, that `arsize` has three bits for. -/
  burstSize : ℕ
  maxBurstLen : ℕ
  burstSize_lt : burstSize < 8
  maxBurstLen_pos : 0 < maxBurstLen
  maxBurstLen_le : maxBurstLen ≤ 256

/-- `m_axi_araddr` and `m_axi_arlen`, or `m_axi_awaddr` and `m_axi_awlen`. -/
structure AxiBurst where
  addr : BitVec 32
  len : BitVec 8
deriving DecidableEq

namespace EngineParams

variable (p : EngineParams)

/-- `AXI_STRB_WIDTH`, the bytes of a word of the bus. -/
def strbWidth : ℕ := 2 ^ p.burstSize

def offsetWidth : ℕ := if 1 < p.strbWidth then p.burstSize else 1

def offsetMask : BitVec 32 :=
  if 1 < p.strbWidth then BitVec.ofNat 32 (2 ^ p.offsetWidth - 1) else 0

/-- `AXI_MAX_BURST_SIZE`, in bytes. -/
def maxBurstSize : BitVec 32 := BitVec.ofNat 32 (p.maxBurstLen <<< p.burstSize)

def mask12 : BitVec 32 := 0xfff

/-- `tr_word_count_next`, the bytes of the next burst of a transfer. -/
def trWordCount (addr opWordCount : BitVec 32) : BitVec 32 :=
  if opWordCount ≤ p.maxBurstSize - (addr &&& p.offsetMask) ∨ 4096 ≤ p.maxBurstSize then
    if ((addr &&& mask12) + (opWordCount &&& mask12)) >>> 12 ≠ 0 ∨ opWordCount >>> 12 ≠ 0 then
      0x1000 - (addr &&& mask12)
    else opWordCount
  else if ((addr &&& mask12) + p.maxBurstSize) >>> 12 ≠ 0 then 0x1000 - (addr &&& mask12)
  else p.maxBurstSize - (addr &&& p.offsetMask)

/-- The words, less one, that `n` bytes from `addr` lie in. -/
def cycles (addr n : BitVec 32) : BitVec 32 := (n + (addr &&& p.offsetMask) - 1) >>> p.burstSize

/-- The next burst of a transfer. -/
def burst (addr opWordCount : BitVec 32) : AxiBurst :=
  ⟨addr, (p.cycles addr (p.trWordCount addr opWordCount)).setWidth 8⟩

/-- The bursts of a transfer, at most `fuel` of them.  A transfer of no bytes has one. -/
def bursts : ℕ → BitVec 32 → BitVec 32 → List AxiBurst
  | 0, _, _ => []
  | fuel + 1, addr, opWordCount =>
    let tr := p.trWordCount addr opWordCount
    p.burst addr opWordCount ::
      if opWordCount - tr = 0 then [] else bursts fuel (addr + tr) (opWordCount - tr)

/-- All of them, as each but the last takes at least one byte. -/
def transfer (addr opWordCount : BitVec 32) : List AxiBurst :=
  p.bursts (opWordCount.toNat + 1) addr opWordCount

/-- The words that a burst goes over. -/
def words (b : AxiBurst) : List ℕ := List.range' (b.addr.toNat / p.strbWidth) (b.len.toNat + 1)

/-! ### Bytes as numbers -/

variable {p} {a n : BitVec 32}

theorem strbWidth_pos : 0 < p.strbWidth := Nat.two_pow_pos _

theorem strbWidth_dvd : ∃ j, 4096 = p.strbWidth * j :=
  ⟨2 ^ (12 - p.burstSize), by
    have := p.burstSize_lt
    rw [strbWidth, ← Nat.pow_add, Nat.add_sub_cancel' (by omega)]⟩

theorem strbWidth_le : p.strbWidth ≤ 128 :=
  Nat.pow_le_pow_right Nat.two_pos (Nat.le_of_lt_succ p.burstSize_lt)

theorem toNat_offset : (a &&& p.offsetMask).toNat = a.toNat % p.strbWidth := by
  have hk := p.burstSize_lt
  unfold offsetMask offsetWidth strbWidth
  by_cases h : 1 < 2 ^ p.burstSize
  · have hlt : 2 ^ p.burstSize - 1 < 2 ^ 32 := by
      have : 2 ^ p.burstSize ≤ 2 ^ 7 := Nat.pow_le_pow_right Nat.two_pos (by omega)
      omega
    rw [if_pos h, if_pos h, BitVec.toNat_and, BitVec.toNat_ofNat, Nat.mod_eq_of_lt hlt,
      Nat.and_two_pow_sub_one_eq_mod]
  · have hone : 2 ^ p.burstSize = 1 := by
      have := Nat.two_pow_pos p.burstSize
      omega
    rw [if_neg h, hone, Nat.mod_one]
    exact congrArg BitVec.toNat BitVec.and_zero

theorem toNat_mask12 : (a &&& mask12).toNat = a.toNat % 4096 := by
  rw [BitVec.toNat_and]
  exact Nat.and_two_pow_sub_one_eq_mod _ 12

theorem toNat_maxBurstSize : p.maxBurstSize.toNat = p.maxBurstLen * p.strbWidth := by
  have h1 := p.maxBurstLen_le
  have h2 : p.strbWidth ≤ 128 := strbWidth_le
  rw [maxBurstSize, BitVec.toNat_ofNat, Nat.shiftLeft_eq]
  have : p.maxBurstLen * p.strbWidth ≤ 256 * 128 := Nat.mul_le_mul h1 h2
  exact Nat.mod_eq_of_lt (show p.maxBurstLen * p.strbWidth < 2 ^ 32 by omega)

theorem ushiftRight_ne_zero (x : BitVec 32) : x >>> 12 ≠ 0 ↔ 4096 ≤ x.toNat := by
  rw [ne_eq, ← BitVec.toNat_inj, BitVec.toNat_ushiftRight, Nat.shiftRight_eq_div_pow]
  exact ⟨fun h => by by_contra hlt; exact h (Nat.div_eq_of_lt (by omega)),
    fun h => Nat.ne_of_gt (Nat.div_pos h (by decide))⟩

/-- The bytes left on the page. -/
theorem toNat_page : (0x1000 - (a &&& mask12)).toNat = 4096 - a.toNat % 4096 := by
  have h : a &&& mask12 ≤ 0x1000 := by
    rw [BitVec.le_def, toNat_mask12]
    exact Nat.le_of_lt (Nat.mod_lt _ (by decide))
  rw [BitVec.toNat_sub_of_le h, toNat_mask12]
  rfl

/-- The bytes left of the longest burst. -/
theorem toNat_longest : (p.maxBurstSize - (a &&& p.offsetMask)).toNat
    = p.maxBurstLen * p.strbWidth - a.toNat % p.strbWidth := by
  have h : a &&& p.offsetMask ≤ p.maxBurstSize := by
    rw [BitVec.le_def, toNat_offset, toNat_maxBurstSize]
    have := Nat.mod_lt a.toNat (strbWidth_pos (p := p))
    exact Nat.le_trans (Nat.le_of_lt this) (Nat.le_mul_of_pos_left _ p.maxBurstLen_pos)
  rw [BitVec.toNat_sub_of_le h, toNat_offset, toNat_maxBurstSize]

theorem toNat_trWordCount : (p.trWordCount a n).toNat =
    if n.toNat ≤ p.maxBurstLen * p.strbWidth - a.toNat % p.strbWidth ∨
        4096 ≤ p.maxBurstLen * p.strbWidth then
      if 4096 ≤ a.toNat % 4096 + n.toNat % 4096 ∨ 4096 ≤ n.toNat then 4096 - a.toNat % 4096
      else n.toNat
    else if 4096 ≤ a.toNat % 4096 + p.maxBurstLen * p.strbWidth then 4096 - a.toNat % 4096
    else p.maxBurstLen * p.strbWidth - a.toNat % p.strbWidth := by
  have ha := Nat.mod_lt a.toNat (show 0 < 4096 by decide)
  have hn := Nat.mod_lt n.toNat (show 0 < 4096 by decide)
  have hm : p.maxBurstLen * p.strbWidth ≤ 256 * 128 :=
    Nat.mul_le_mul p.maxBurstLen_le strbWidth_le
  have hsum : ((a &&& mask12) + (n &&& mask12)).toNat = a.toNat % 4096 + n.toNat % 4096 := by
    rw [BitVec.toNat_add, toNat_mask12, toNat_mask12]
    omega
  have hsum' : ((a &&& mask12) + p.maxBurstSize).toNat
      = a.toNat % 4096 + p.maxBurstLen * p.strbWidth := by
    rw [BitVec.toNat_add, toNat_mask12, toNat_maxBurstSize]
    omega
  have h4096 : (4096 ≤ p.maxBurstSize) ↔ 4096 ≤ p.maxBurstLen * p.strbWidth := by
    rw [BitVec.le_def, toNat_maxBurstSize]
    rfl
  rw [trWordCount]
  simp only [BitVec.le_def (x := n), toNat_longest, h4096, ushiftRight_ne_zero, hsum, hsum']
  split <;> split <;> simp only [toNat_page, toNat_longest]

/-! ### One burst -/

/-- The first `tr` bytes of a transfer of `n` bytes from `a` make a burst. -/
structure Cut (p : EngineParams) (a n tr : ℕ) : Prop where
  pos : 0 < tr
  le : tr ≤ n
  page : a % 4096 + tr ≤ 4096
  fits : tr + a % p.strbWidth ≤ p.maxBurstLen * p.strbWidth
  aligned : tr ≠ n → p.strbWidth ∣ a + tr

theorem trWordCount_cut (hn : n ≠ 0) : Cut p a.toNat n.toNat (p.trWordCount a n).toNat := by
  have hpos : 0 < n.toNat := Nat.pos_of_ne_zero fun h => hn (BitVec.eq_of_toNat_eq h)
  obtain ⟨j, hj⟩ := p.strbWidth_dvd
  have hW : 0 < p.strbWidth := strbWidth_pos
  have hdvd : p.strbWidth ∣ 4096 := ⟨j, hj⟩
  have hlt := Nat.mod_lt a.toNat hW
  have hr := Nat.mod_lt a.toNat (show 0 < 4096 by decide)
  have hle : a.toNat % p.strbWidth ≤ a.toNat % 4096 := by
    rw [← Nat.mod_mod_of_dvd a.toNat hdvd]
    exact Nat.mod_le _ _
  have hM : p.strbWidth ≤ p.maxBurstLen * p.strbWidth :=
    Nat.le_mul_of_pos_left _ p.maxBurstLen_pos
  -- the end of the page and the end of the longest burst are ends of words
  have hpage : p.strbWidth ∣ a.toNat + (4096 - a.toNat % 4096) := by
    rw [show a.toNat + (4096 - a.toNat % 4096) = 4096 * (a.toNat / 4096 + 1) by omega]
    exact Dvd.dvd.mul_right hdvd _
  have hlong : p.strbWidth ∣ a.toNat + (p.maxBurstLen * p.strbWidth - a.toNat % p.strbWidth) := by
    rw [show a.toNat + (p.maxBurstLen * p.strbWidth - a.toNat % p.strbWidth)
      = (a.toNat - a.toNat % p.strbWidth) + p.maxBurstLen * p.strbWidth by
        have := Nat.mod_le a.toNat p.strbWidth
        omega]
    exact Nat.dvd_add (Nat.dvd_sub_mod _) (Dvd.intro_left _ rfl)
  -- so a page that ends within the longest burst ends no later than it
  have hfit : 4096 - a.toNat % 4096 ≤ p.maxBurstLen * p.strbWidth →
      4096 - a.toNat % 4096 + a.toNat % p.strbWidth ≤ p.maxBurstLen * p.strbWidth := by
    intro h
    obtain ⟨x, hx⟩ := hpage
    obtain ⟨y, hy⟩ := hlong
    rcases Nat.lt_or_ge y x with hxy | hxy
    · have := Nat.mul_le_mul_left p.strbWidth (Nat.succ_le_of_lt hxy)
      rw [Nat.mul_succ] at this
      omega
    · have := Nat.mul_le_mul_left p.strbWidth hxy
      omega
  rw [toNat_trWordCount]
  split
  · split
    · refine ⟨by omega, by omega, by omega, by omega, fun _ => hpage⟩
    · refine ⟨hpos, le_rfl, by omega, by omega, fun h => absurd rfl h⟩
  · split
    · refine ⟨by omega, by omega, by omega, hfit (by omega), fun _ => hpage⟩
    · refine ⟨by omega, by omega, by omega, by omega, fun _ => hlong⟩

theorem toNat_cycles (hn : n ≠ 0) (h : n.toNat + a.toNat % p.strbWidth ≤ 2 ^ 32) :
    (p.cycles a n).toNat = (n.toNat + a.toNat % p.strbWidth - 1) / p.strbWidth := by
  have hpos : 0 < n.toNat := Nat.pos_of_ne_zero fun h => hn (BitVec.eq_of_toNat_eq h)
  have hsub : (n + (a &&& p.offsetMask) - 1).toNat = n.toNat + a.toNat % p.strbWidth - 1 := by
    rw [BitVec.toNat_sub, BitVec.toNat_add, toNat_offset]
    show (2 ^ 32 - 1 + (n.toNat + a.toNat % p.strbWidth) % 2 ^ 32) % 2 ^ 32 = _
    omega
  rw [cycles, BitVec.toNat_ushiftRight, hsub, Nat.shiftRight_eq_div_pow]
  rfl

theorem trWordCount_ne_zero (hn : n ≠ 0) : p.trWordCount a n ≠ 0 := fun h =>
  Nat.ne_of_gt (trWordCount_cut (p := p) (a := a) hn).pos (congrArg BitVec.toNat h)

theorem toNat_burst_len (hn : n ≠ 0) : (p.burst a n).len.toNat
    = ((p.trWordCount a n).toNat + a.toNat % p.strbWidth - 1) / p.strbWidth ∧
    (p.burst a n).len.toNat < p.maxBurstLen := by
  have hcut := trWordCount_cut (p := p) (a := a) hn
  have hfits := hcut.fits
  have hpos := hcut.pos
  have hL := p.maxBurstLen_le
  have hM : p.maxBurstLen * p.strbWidth ≤ 256 * 128 :=
    Nat.mul_le_mul p.maxBurstLen_le strbWidth_le
  have hcyc := toNat_cycles (p := p) (a := a) (trWordCount_ne_zero (p := p) (a := a) hn) (by omega)
  have hlt : (p.cycles a (p.trWordCount a n)).toNat < p.maxBurstLen := by
    rw [hcyc]
    exact Nat.div_lt_of_lt_mul (by rw [Nat.mul_comm]; omega)
  have heq : (p.burst a n).len.toNat = (p.cycles a (p.trWordCount a n)).toNat := by
    show (BitVec.setWidth 8 _).toNat = _
    rw [BitVec.toNat_setWidth]
    exact Nat.mod_eq_of_lt (by omega)
  exact ⟨heq.trans hcyc, heq ▸ hlt⟩

/-! ### All of them -/

theorem toNat_rest (hn : n ≠ 0) :
    (n - p.trWordCount a n).toNat = n.toNat - (p.trWordCount a n).toNat :=
  BitVec.toNat_sub_of_le (BitVec.le_def.mpr (trWordCount_cut hn).le)

theorem trWordCount_zero : p.trWordCount a 0 = 0 := by
  apply BitVec.eq_of_toNat_eq
  have ha := Nat.mod_lt a.toNat (show 0 < 4096 by decide)
  have hpos : (0 : BitVec 32).toNat = 0 := rfl
  rw [toNat_trWordCount, hpos, if_pos (Or.inl (Nat.zero_le _)), if_neg (by omega)]

/-- What is left is less, or nothing was left. -/
theorem toNat_rest_lt (h : n - p.trWordCount a n ≠ 0) :
    (n - p.trWordCount a n).toNat < n.toNat := by
  by_cases hn : n = 0
  · subst hn
    exact absurd (by rw [trWordCount_zero]; rfl) h
  · have hcut := trWordCount_cut (p := p) (a := a) hn
    rw [toNat_rest hn]
    exact Nat.sub_lt_of_pos_le hcut.pos hcut.le

/-- Only the number of bytes bounds the number of bursts. -/
theorem bursts_fuel (fuel fuel' : ℕ) (h : n.toNat < fuel) (h' : n.toNat < fuel') :
    p.bursts fuel a n = p.bursts fuel' a n := by
  induction fuel generalizing fuel' a n with
  | zero => exact absurd h (Nat.not_lt_zero _)
  | succ fuel ih =>
    cases fuel' with
    | zero => exact absurd h' (Nat.not_lt_zero _)
    | succ fuel' =>
      rw [bursts, bursts]
      by_cases hr : n - p.trWordCount a n = 0
      · rw [if_pos hr, if_pos hr]
      · have hlt := toNat_rest_lt hr
        rw [if_neg hr, if_neg hr, ih fuel' (by omega) (by omega)]

theorem transfer_eq (p : EngineParams) (a n : BitVec 32) : p.transfer a n = p.burst a n ::
    if n - p.trWordCount a n = 0 then []
    else p.transfer (a + p.trWordCount a n) (n - p.trWordCount a n) := by
  rw [transfer, bursts]
  by_cases hr : n - p.trWordCount a n = 0
  · rw [if_pos hr, if_pos hr]
  · rw [if_neg hr, if_neg hr, transfer,
      bursts_fuel n.toNat _ (toNat_rest_lt hr) (Nat.lt_succ_self _)]

/-- A rule for all bursts of a transfer, from one for the next burst. -/
theorem transfer_induction (p : EngineParams) {P : BitVec 32 → BitVec 32 → Prop}
    (last : ∀ a n, n ≠ 0 → n - p.trWordCount a n = 0 → P a n)
    (next : ∀ a n, n ≠ 0 → n - p.trWordCount a n ≠ 0 →
      P (a + p.trWordCount a n) (n - p.trWordCount a n) → P a n) (hn : n ≠ 0) : P a n := by
  induction h : n.toNat using Nat.strong_induction_on generalizing a n with
  | _ m ih =>
    by_cases hr : n - p.trWordCount a n = 0
    · exact last a n hn hr
    · exact next a n hn hr (ih _ (h ▸ toNat_rest_lt hr) hr rfl)

/-- A burst stays on its page and is not too long. -/
structure Legal (p : EngineParams) (b : AxiBurst) : Prop where
  page : ∀ x ∈ p.words b, x * p.strbWidth / 4096 = b.addr.toNat / 4096
  len : b.len.toNat < p.maxBurstLen

theorem burst_legal (hn : n ≠ 0) : p.Legal (p.burst a n) := by
  refine ⟨?_, (toNat_burst_len hn).2⟩
  intro x hx
  have hcut := trWordCount_cut (p := p) (a := a) hn
  have hpage := hcut.page
  have hpos := hcut.pos
  obtain ⟨i, hi, rfl⟩ := List.mem_range'.mp hx
  rw [(toNat_burst_len hn).1] at hi
  show (a.toNat / p.strbWidth + 1 * i) * p.strbWidth / 4096 = a.toNat / 4096
  obtain ⟨j, hj⟩ := p.strbWidth_dvd
  -- the word begins between the page and the end of the burst
  have hlow : a.toNat / 4096 * 4096 ≤ a.toNat / p.strbWidth * p.strbWidth := by
    rw [hj, Nat.mul_comm (p.strbWidth) j, ← Nat.mul_assoc]
    refine Nat.mul_le_mul_right _ ((Nat.le_div_iff_mul_le strbWidth_pos).mpr ?_)
    rw [Nat.mul_assoc, Nat.mul_comm j, ← hj]
    exact Nat.div_mul_le_self _ _
  have hhigh : i * p.strbWidth
      ≤ (p.trWordCount a n).toNat + a.toNat % p.strbWidth - 1 :=
    (Nat.le_div_iff_mul_le strbWidth_pos).mp (Nat.le_of_lt_succ hi)
  have hdiv := Nat.div_add_mod' a.toNat p.strbWidth
  rw [Nat.add_mul, Nat.one_mul]
  omega

/-- **No burst of a transfer crosses a page, and none is longer than the longest.** -/
theorem transfer_legal (hn : n ≠ 0) : ∀ b ∈ p.transfer a n, p.Legal b := by
  refine transfer_induction p (P := fun a n => ∀ b ∈ p.transfer a n, p.Legal b) ?_ ?_ hn
  · intro a n hn hr b hb
    rw [transfer_eq, if_pos hr, List.mem_singleton] at hb
    exact hb ▸ burst_legal hn
  · intro a n hn hr ih b hb
    rw [transfer_eq, if_neg hr, List.mem_cons] at hb
    rcases hb with rfl | hb
    · exact burst_legal hn
    · exact ih b hb

/-- **The bursts of a transfer go over its words, each of them once and in order.** -/
theorem transfer_words (hn : n ≠ 0) (h : a.toNat + n.toNat ≤ 2 ^ 32) :
    (p.transfer a n).flatMap p.words = List.range' (a.toNat / p.strbWidth)
      ((n.toNat + a.toNat % p.strbWidth - 1) / p.strbWidth + 1) := by
  revert h
  refine transfer_induction p (P := fun a n => a.toNat + n.toNat ≤ 2 ^ 32 →
    (p.transfer a n).flatMap p.words = List.range' (a.toNat / p.strbWidth)
      ((n.toNat + a.toNat % p.strbWidth - 1) / p.strbWidth + 1)) ?_ ?_ hn
  · intro a n hn hr _
    have hcut := trWordCount_cut (p := p) (a := a) hn
    have htr : (p.trWordCount a n).toNat = n.toNat := by
      have hzero := congrArg BitVec.toNat hr
      rw [toNat_rest hn] at hzero
      have := hcut.le
      exact Nat.le_antisymm hcut.le (Nat.sub_eq_zero_iff_le.mp hzero)
    rw [transfer_eq, if_pos hr, List.flatMap_singleton, words, (toNat_burst_len hn).1, htr]
    rfl
  · intro a n hn hr ih h
    have hcut := trWordCount_cut (p := p) (a := a) hn
    have hle := hcut.le
    have hpos := hcut.pos
    have hrest : (n - p.trWordCount a n).toNat = n.toNat - (p.trWordCount a n).toNat :=
      toNat_rest hn
    have hne : (n - p.trWordCount a n).toNat ≠ 0 := fun h0 => hr (BitVec.eq_of_toNat_eq h0)
    have haddr : (a + p.trWordCount a n).toNat = a.toNat + (p.trWordCount a n).toNat := by
      rw [BitVec.toNat_add]
      exact Nat.mod_eq_of_lt (by omega)
    -- the burst ends with a word, so the next one begins with the next word
    obtain ⟨x, hx⟩ := hcut.aligned (by omega)
    have hdiv := Nat.div_add_mod a.toNat p.strbWidth
    have hlen : (p.trWordCount a n).toNat + a.toNat % p.strbWidth
        = p.strbWidth * (x - a.toNat / p.strbWidth) := by
      rw [Nat.mul_sub]
      omega
    have hx' : a.toNat / p.strbWidth < x :=
      Nat.lt_of_mul_lt_mul_left (a := p.strbWidth) (by omega)
    have hcount : ((p.trWordCount a n).toNat + a.toNat % p.strbWidth - 1) / p.strbWidth + 1
        = x - a.toNat / p.strbWidth := by
      rw [hlen]
      obtain ⟨c, hc⟩ : ∃ c, x - a.toNat / p.strbWidth = c + 1 := ⟨_, (Nat.sub_add_cancel
        (Nat.sub_pos_of_lt hx')).symm⟩
      have hW : 0 < p.strbWidth := strbWidth_pos
      rw [hc, Nat.mul_succ, Nat.add_sub_assoc hW, Nat.mul_add_div hW, Nat.div_eq_of_lt (by omega)]
    have htotal : n.toNat + a.toNat % p.strbWidth - 1
        = p.strbWidth * (x - a.toNat / p.strbWidth) + (n.toNat - (p.trWordCount a n).toNat - 1) := by
      omega
    have hnext : (n - p.trWordCount a n).toNat + (a + p.trWordCount a n).toNat % p.strbWidth - 1
        = n.toNat - (p.trWordCount a n).toNat - 1 := by
      rw [haddr, hx, Nat.mul_mod_right, hrest]
      omega
    rw [transfer_eq, if_neg hr, List.flatMap_cons, ih (by omega), words, (toNat_burst_len hn).1,
      hcount, hnext, haddr, hx, Nat.mul_div_cancel_left _ strbWidth_pos, htotal,
      Nat.mul_add_div strbWidth_pos]
    have hstart : x = a.toNat / p.strbWidth + (x - a.toNat / p.strbWidth) :=
      (Nat.add_sub_cancel' (Nat.le_of_lt hx')).symm
    show List.range' (a.toNat / p.strbWidth) _ ++ _ = _
    nth_rewrite 2 [hstart]
    rw [List.range'_append_1, Nat.add_assoc]

/-- The bursts of every transfer are legal, and go over its words. -/
theorem transfer_bursts (p : EngineParams) (a n : BitVec 32) (hn : n ≠ 0)
    (h : a.toNat + n.toNat ≤ 2 ^ 32) :
    (∀ b ∈ p.transfer a n, p.Legal b) ∧
      (p.transfer a n).flatMap p.words = List.range' (a.toNat / p.strbWidth)
        ((n.toNat + a.toNat % p.strbWidth - 1) / p.strbWidth + 1) :=
  ⟨transfer_legal hn, transfer_words hn h⟩

/-- Words of eight bytes, in bursts of at most 16. -/
def eightBytes : EngineParams := ⟨3, 16, by decide, by decide, by decide⟩

/-- 200 bytes that begin inside a word and cross a page. -/
theorem crossing_bursts : eightBytes.transfer 4003 200 = [⟨4003, 11⟩, ⟨4096, 13⟩] ∧
    (∀ b ∈ eightBytes.transfer 4003 200, eightBytes.Legal b) ∧
    (eightBytes.transfer 4003 200).flatMap eightBytes.words = List.range' 500 26 :=
  ⟨by decide +kernel, transfer_bursts eightBytes 4003 200 (by decide) (by decide)⟩

end EngineParams

end AxisSystolic
