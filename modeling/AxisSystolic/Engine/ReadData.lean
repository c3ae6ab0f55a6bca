import AxisSystolic.Engine.ReadFrame
import AxisSystolic.Sync.Ring

/-!
# The data of the read engine (`alex_axi_dma_rd.sv`)

The engine receives the words of one descriptor after the other, and puts a beat into its
output FIFO with each of them.  If the first byte is inside a word, the first word is only
saved (`bubble`), and each beat is made of the upper part of the word that is saved and the
lower part of the one that comes.  The last beat is then made without a word when all of it
is saved.

`Reading d ws k s` says that the words `ws` of descriptor `d` have come and `k` beats of it
are out.  With the last beat the status is reported, with an error if a word came with one.
-/

namespace AxisSystolic

open Sync Mem

inductive RdAxisState where
  | idle
  | read
deriving DecidableEq

/-- The inputs of the part that receives the data. -/
structure RdDataIn (p : AxiDmaParams) where
  cmd : RdCmd p
  cmdValid : Bool
  rdata : BitVec (8 * p.strbWidth)
  rresp : BitVec 2
  rvalid : Bool
  /-- `m_axis_read_data_tready_int`. -/
  treadyInt : Bool

/-- Its registers. -/
structure RdData (p : AxiDmaParams) where
  state : RdAxisState
  cur : RdCmd p
  inputActive : Bool
  outputActive : Bool
  firstCycle : Bool
  outputLastCycle : Bool
  rresp : BitVec 2
  statusTag : BitVec p.tagWidth
  statusError : BitVec 4
  statusValid : Bool
  rready : Bool
  save : BitVec (8 * p.strbWidth)

/-- `DMA_ERROR_AXI_RD_SLVERR`, `DMA_ERROR_AXI_RD_DECERR` or `DMA_ERROR_NONE`. -/
def rdError (r : BitVec 2) : BitVec 4 := if r == 2 then 4 else if r == 3 then 5 else 0

variable {p : AxiDmaParams}

namespace RdData

def reset (p : AxiDmaParams) : RdData p where
  state := .idle
  cur := ⟨0, 0, 0, 0, false, 0, p.sideReset⟩
  inputActive := false
  outputActive := false
  firstCycle := false
  outputLastCycle := false
  rresp := 0
  statusTag := 0
  statusError := 0
  statusValid := false
  rready := false
  save := 0

variable (s : RdData p) (i : RdDataIn p)

/-- A word comes. -/
def takes : Bool := s.rready && i.rvalid

def rrespNext : BitVec 2 := if s.takes i && respError i.rresp then i.rresp else s.rresp

/-- `shift_axi_rdata`. -/
def shiftRdata : BitVec (8 * p.strbWidth) :=
  ((i.rdata ++ s.save) >>> (8 * (p.strbWidth - s.cur.offset.toNat))).setWidth _

def moves : Bool := s.takes i || !s.inputActive

/-- The first word is only saved. -/
def bubble : Bool := s.firstCycle && s.cur.bubbleCycle

def lastKeep : BitVec p.strbWidth :=
  if 0 < s.cur.lastCycleOffset then
    BitVec.allOnes _ >>> (p.strbWidth - s.cur.lastCycleOffset.toNat)
  else BitVec.allOnes _

/-- `m_axis_read_data_*_int`. -/
def beat : RdBeat p where
  tdata := s.shiftRdata i
  tkeep := if s.outputLastCycle then s.lastKeep else BitVec.allOnes _
  tlast := s.outputLastCycle
  side := s.cur.side

/-- What is put into the output FIFO. -/
def pushed : Option (RdBeat p) :=
  if s.state == .read && s.moves i && !s.bubble then some (s.beat i) else none

/-- `axis_cmd_ready`. -/
def cmdReady : Bool := s.state == .idle && i.cmdValid

def inputCountNext : BitVec p.cycleCountWidth :=
  if s.inputActive then s.cur.inputCycleCount - 1 else s.cur.inputCycleCount

def inputActiveNext : Bool := s.inputActive && decide (0 < s.cur.inputCycleCount)

def outputCountNext : BitVec p.cycleCountWidth :=
  if s.outputActive then s.cur.outputCycleCount - 1 else s.cur.outputCycleCount

def outputActiveNext : Bool := s.outputActive && decide (0 < s.cur.outputCycleCount)

def saveNext : BitVec (8 * p.strbWidth) := if s.takes i then i.rdata else s.save

/-- A clock edge. -/
def step : RdData p :=
  match s.state with
  | .idle =>
    { state := if i.cmdValid then .read else .idle
      cur := i.cmd
      inputActive := true
      outputActive := true
      firstCycle := true
      outputLastCycle := i.cmd.outputCycleCount == 0
      rresp := s.rrespNext i
      statusTag := s.statusTag
      statusError := s.statusError
      statusValid := false
      rready := i.cmdValid && i.treadyInt
      save := s.save }
  | .read =>
    if s.moves i then
      if s.bubble then
        { s with
          cur := { s.cur with inputCycleCount := s.inputCountNext, bubbleCycle := false }
          inputActive := s.inputActiveNext
          firstCycle := false
          rresp := s.rrespNext i
          statusValid := false
          rready := i.treadyInt && s.inputActiveNext
          save := s.saveNext i }
      else
        { state := if s.outputLastCycle then .idle else .read
          cur := { s.cur with
            inputCycleCount := s.inputCountNext
            outputCycleCount := s.outputCountNext
            bubbleCycle := false }
          inputActive := s.inputActiveNext
          outputActive := s.outputActiveNext
          firstCycle := false
          outputLastCycle := s.outputCountNext == 0
          rresp := if s.outputLastCycle then 0 else s.rrespNext i
          statusTag := if s.outputLastCycle then s.cur.tag else s.statusTag
          statusError :=
            if s.outputLastCycle then rdError (s.rrespNext i) else s.statusError
          statusValid := s.outputLastCycle
          rready := if s.outputLastCycle then false else i.treadyInt && s.inputActiveNext
          save := s.saveNext i }
    else
      { s with
        rresp := s.rrespNext i
        statusValid := false
        rready := i.treadyInt && s.inputActive }

/-- A word and its response. -/
abbrev Word (p : AxiDmaParams) : Type := BitVec (8 * p.strbWidth) × BitVec 2

/-- The word that comes. -/
def rTaken : Option (Word p) := if s.takes i then some (i.rdata, i.rresp) else none

/-! ### One descriptor -/

/-- The words `ws` of the descriptor `d` have come, and `k` beats of it are out. -/
structure Reading (d : RdDesc p) (ws : List (Word p)) (k : ℕ) (s : RdData p) : Prop where
  state : s.state = .read
  offset : s.cur.offset = d.cmd.offset
  lastCycleOffset : s.cur.lastCycleOffset = d.cmd.lastCycleOffset
  tag : s.cur.tag = d.tag
  side : s.cur.side = d.side
  le : ws.length ≤ d.inWords
  active : s.inputActive = decide (ws.length < d.inWords)
  inCount : ws.length < d.inWords →
    s.cur.inputCycleCount.toNat + 1 + ws.length = d.inWords
  outCount : s.cur.outputCycleCount.toNat + 1 + k = d.outBeats
  outActive : s.outputActive = true
  last : s.outputLastCycle = decide (k + 1 = d.outBeats)
  bubble : s.bubble = decide (ws = [] ∧ d.off ≠ 0)
  count : ws.length = k + if ws ≠ [] ∧ d.off ≠ 0 then 1 else 0
  save : ∀ w ∈ ws.getLast?, s.save = w.1
  rresp : s.rresp = worstResp (ws.map Prod.snd)
  rready : s.rready = true → ws.length < d.inWords

/-- Nothing is being received. -/
structure Resting (s : RdData p) : Prop where
  state : s.state = .idle
  rresp : s.rresp = 0
  rready : s.rready = false

variable {s i} {d : RdDesc p} {ws : List (Word p)} {k : ℕ}

theorem resting_reset : Resting (reset p) := ⟨rfl, rfl, rfl⟩

theorem Resting.takes (h : Resting s) (i : RdDataIn p) : s.takes i = false := by
  rw [RdData.takes, h.rready]
  rfl

/-- Without a command nothing changes. -/
theorem Resting.stay (h : Resting s) (hc : i.cmdValid = false) : Resting (s.step i) := by
  refine ⟨?_, ?_, ?_⟩
  · simp [RdData.step, h.state, hc]
  · simp [RdData.step, h.state, rrespNext, h.takes i, h.rresp]
  · simp [RdData.step, h.state, hc]

/-- With a command a descriptor is begun. -/
theorem Resting.begin (h : Resting s) (hc : i.cmdValid = true) (hd : i.cmd = d.cmd)
    (hfit : d.Fits) : Reading d [] 0 (s.step i) := by
  have hin := hfit.toNat_inputCycleCount
  have hout := hfit.toNat_outputCycleCount
  have hwords : 0 < d.inWords := Nat.succ_pos _
  have hcur : (s.step i).cur = d.cmd := by simp [RdData.step, h.state, hd]
  refine ⟨?_, ?_, ?_, ?_, ?_, Nat.zero_le _, ?_, ?_, ?_, ?_, ?_, ?_, ?_, ?_, ?_, ?_⟩
  · simp [RdData.step, h.state, hc]
  · rw [hcur]
  · rw [hcur]
  · rw [hcur, RdDesc.cmd]
  · rw [hcur, RdDesc.cmd]
  · simp [RdData.step, h.state, hwords]
  · intro _
    rw [hcur]
    exact hin
  · rw [hcur]
    exact hout
  · simp [RdData.step, h.state]
  · have hlast : (s.step i).outputLastCycle = (d.cmd.outputCycleCount == 0) := by
      simp [RdData.step, h.state, hd]
    rw [hlast, Bool.beq_eq_decide_eq]
    refine decide_eq_decide.mpr ⟨fun h0 => ?_, fun h0 => BitVec.eq_of_toNat_eq ?_⟩
    · rw [h0] at hout
      exact hout
    · show _ = 0
      omega
  · have hbub : (s.step i).bubble = d.cmd.bubbleCycle := by
      rw [RdData.bubble, hcur]
      simp [RdData.step, h.state]
    rw [hbub, RdDesc.Fits.bubbleCycle_eq]
    simp
  · rfl
  · exact fun w hw => absurd hw (Option.not_mem_none _)
  · simp [RdData.step, h.state, rrespNext, h.takes i, h.rresp, worstResp]
  · exact fun _ => hwords

namespace Reading

theorem takes_or (h : Reading d ws k s) (i : RdDataIn p) (hm : s.moves i = true) :
    s.takes i = true ∨ ws.length = d.inWords := by
  rw [moves, Bool.or_eq_true, Bool.not_eq_true', h.active, decide_eq_false_iff_not] at hm
  exact hm.imp id fun hn => Nat.le_antisymm h.le (Nat.le_of_not_lt hn)

/-- A word only comes while it is asked for. -/
theorem lt_of_takes (h : Reading d ws k s) (ht : s.takes i = true) : ws.length < d.inWords := by
  rw [takes, Bool.and_eq_true] at ht
  exact h.rready ht.1

theorem rresp_step (h : Reading d ws k s) (i : RdDataIn p) :
    s.rrespNext i = worstResp ((ws ++ (s.rTaken i).toList).map Prod.snd) := by
  rw [rrespNext, rTaken, h.rresp, worstResp, worstResp]
  cases ht : s.takes i with
  | false => simp
  | true => simp [List.foldl_append]

theorem bubble_iff (h : Reading d ws k s) : s.bubble = true ↔ ws = [] ∧ d.off ≠ 0 := by
  rw [h.bubble, decide_eq_true_iff]

theorem nonempty (h : Reading d ws k s) (hb : s.bubble = false) (hz : d.off ≠ 0) : ws ≠ [] := by
  intro h0
  rw [h.bubble, decide_eq_false_iff_not] at hb
  exact hb ⟨h0, hz⟩

/-- The counter of the words goes with them. -/
theorem inCount_step (h : Reading d ws k s) (ht : s.takes i = true) :
    s.inputActiveNext = decide (ws.length + 1 < d.inWords) ∧
    (ws.length + 1 < d.inWords → s.inputCountNext.toNat + 1 + (ws.length + 1) = d.inWords) := by
  have hlt := h.lt_of_takes ht
  have hcount := h.inCount hlt
  have hactive : s.inputActive = true := by rw [h.active, decide_eq_true hlt]
  refine ⟨?_, ?_⟩
  · rw [inputActiveNext, hactive, Bool.true_and]
    refine decide_eq_decide.mpr ?_
    rw [BitVec.lt_def]
    show 0 < _ ↔ _
    omega
  · intro hlt'
    have hne : s.cur.inputCycleCount ≠ 0 := by
      intro h0
      rw [h0] at hcount
      change 0 + 1 + ws.length = d.inWords at hcount
      omega
    rw [inputCountNext, hactive, if_pos rfl, toNat_sub_one hne]
    omega

/-- Nothing moves. -/
theorem stall (h : Reading d ws k s) (hm : s.moves i = false) : Reading d ws k (s.step i) := by
  have hno : s.takes i = false := by
    rw [moves, Bool.or_eq_false_iff] at hm
    exact hm.1
  have hstep : s.step i = { s with
      rresp := s.rrespNext i
      statusValid := false
      rready := i.treadyInt && s.inputActive } := by
    simp [RdData.step, h.state, hm]
  have hresp := h.rresp_step i
  rw [rTaken, hno, if_neg Bool.false_ne_true, Option.toList_none, List.append_nil] at hresp
  rw [hstep]
  refine { h with rresp := hresp, rready := ?_ }
  intro hr
  have hactive : s.inputActive = true := (Bool.and_eq_true _ _ ▸ hr).2
  rw [h.active] at hactive
  exact of_decide_eq_true hactive

/-- While nothing moves the engine is ready if its FIFO lets it. -/
theorem rready_of_stall (h : Reading d ws k s) (hm : s.moves i = false)
    (hlt : ws.length < d.inWords) (hr : i.treadyInt = true) : (s.step i).rready = true := by
  simp [RdData.step, h.state, hm, h.active, hlt, hr]

/-- The first word is saved. -/
theorem save_first (h : Reading d ws k s) (hm : s.moves i = true) (hb : s.bubble = true) :
    s.takes i = true ∧ k = 0 ∧ Reading d (ws ++ (s.rTaken i).toList) k (s.step i) := by
  obtain ⟨rfl, hoff⟩ := h.bubble_iff.mp hb
  have hwords : 0 < d.inWords := Nat.succ_pos _
  have ht : s.takes i = true := (h.takes_or i hm).resolve_right (Nat.ne_of_lt hwords)
  have hk : k = 0 := by
    have := h.count
    simp only [List.length_nil] at this
    omega
  obtain ⟨hactive, hcount⟩ := h.inCount_step ht
  have hresp := h.rresp_step i
  have htaken : s.rTaken i = some (i.rdata, i.rresp) := by rw [rTaken, if_pos ht]
  have hstep : s.step i = { s with
      cur := { s.cur with inputCycleCount := s.inputCountNext, bubbleCycle := false }
      inputActive := s.inputActiveNext
      firstCycle := false
      rresp := s.rrespNext i
      statusValid := false
      rready := i.treadyInt && s.inputActiveNext
      save := s.saveNext i } := by
    simp [RdData.step, h.state, hm, hb]
  refine ⟨ht, hk, ?_⟩
  rw [htaken] at hresp ⊢
  rw [hstep]
  refine
    { h with
      le := hwords
      active := hactive
      inCount := hcount
      bubble := ?_
      count := ?_
      save := ?_
      rresp := hresp
      rready := ?_ }
  · simp [RdData.bubble]
  · simp [hk, hoff]
  · intro w hw
    have : (i.rdata, i.rresp) = w := by simpa using hw
    rw [← this]
    exact if_pos ht
  · intro hr
    have hr' : s.inputActiveNext = true := (Bool.and_eq_true _ _ ▸ hr).2
    rw [hactive] at hr'
    exact of_decide_eq_true hr'

/-! ### The beats -/

theorem lead_eq (h : Reading d ws k s) :
    p.strbWidth - s.cur.offset.toNat = if d.off = 0 then p.strbWidth else d.off := by
  have hoff := RdDesc.Fits.off_lt (d := d)
  rw [h.offset, RdDesc.Fits.toNat_cmd_offset]
  split <;> omega

/-- **The joined words have the bytes that come next**, as far as their words have come. -/
theorem join (h : Reading d ws k s) (i : RdDataIn p) (hb : s.bubble = false) {r : ℕ}
    (hr : r ≤ p.strbWidth)
    (hlen : d.off + k * p.strbWidth + r ≤ (ws ++ (s.rTaken i).toList).length * p.strbWidth) :
    (toBytes p.strbWidth (s.shiftRdata i)).take r
      = ((bytesOf ((ws ++ (s.rTaken i).toList).map Prod.fst)).drop
          (d.off + k * p.strbWidth)).take r := by
  have hoff := RdDesc.Fits.off_lt (d := d)
  have hcount := h.count
  have hlead : p.strbWidth - s.cur.offset.toNat ≤ p.strbWidth := Nat.sub_le _ _
  rw [shiftRdata, toBytes_join _ _ hlead, List.take_take, Nat.min_eq_left hr, h.lead_eq,
    List.map_append, bytesOf_append]
  rw [List.length_append] at hlen
  by_cases hz : d.off = 0
  · -- the word that comes is the beat
    have hk : ws.length = k := by simpa [hz] using hcount
    have hdrop : (bytesOf (ws.map Prod.fst)).length = d.off + k * p.strbWidth := by
      rw [length_bytesOf, List.length_map, hk, hz, Nat.zero_add]
    rw [if_pos hz, List.drop_left' (length_toBytes _ _), List.drop_left' hdrop]
    cases ht : s.takes i with
    | true => simp [rTaken, ht]
    | false =>
      rw [rTaken, ht, if_neg Bool.false_ne_true, Option.toList_none, List.length_nil, Nat.add_zero,
        hk, hz] at hlen
      obtain rfl : r = 0 := by omega
      rfl
  · -- the beat begins in the word that is saved
    have hne := h.nonempty hb hz
    obtain ⟨pre, w, rfl⟩ : ∃ pre w, ws = pre ++ [w] :=
      ⟨_, _, (List.dropLast_concat_getLast hne).symm⟩
    have hsave : s.save = w.1 := h.save w (by simp)
    have hk : pre.length = k := by simpa [hz] using hcount
    have hdrop : (bytesOf (pre.map Prod.fst)).length = k * p.strbWidth := by
      rw [length_bytesOf, List.length_map, hk]
    rw [if_neg hz, List.map_append, bytesOf_append, List.append_assoc, Nat.add_comm d.off,
      ← List.drop_drop, List.drop_left' hdrop, List.map_singleton, bytesOf_singleton, ← hsave]
    cases ht : s.takes i with
    | true => simp [rTaken, ht]
    | false =>
      rw [rTaken, ht, if_neg Bool.false_ne_true, Option.toList_none, List.length_nil, Nat.add_zero,
        List.length_append, List.length_singleton, hk, Nat.succ_mul] at hlen
      simp only [rTaken, ht, Bool.false_eq_true, if_false, Option.toList_none, List.map_nil]
      rw [show bytesOf ([] : List (BitVec (8 * p.strbWidth))) = [] from rfl, List.append_nil]
      apply take_drop_append
      rw [length_toBytes]
      omega

/-- While more than the last beat is to come, a beat only goes out with a word. -/
theorem takes_of_more (h : Reading d ws k s) (hfit : d.Fits) (hm : s.moves i = true)
    (hb : s.bubble = false) (hl : k + 1 ≠ d.outBeats) : s.takes i = true := by
  refine (h.takes_or i hm).resolve_right fun hall => hl ?_
  have hcount := h.count
  have hout := h.outCount
  have hle := hfit.outBeats_le
  by_cases hz : d.off = 0
  · have := RdDesc.Fits.inWords_of_aligned hz
    simp only [hz, ne_eq, not_true_eq_false, and_false, if_false] at hcount
    omega
  · rw [if_pos ⟨h.nonempty hb hz, hz⟩] at hcount
    omega

/-- The words that have come with the last beat are all of them. -/
theorem length_of_last (h : Reading d ws k s) (hfit : d.Fits) (hm : s.moves i = true)
    (hb : s.bubble = false) (hl : k + 1 = d.outBeats) :
    (ws ++ (s.rTaken i).toList).length = d.inWords := by
  have hcount := h.count
  have hle := hfit.outBeats_le
  rcases Bool.eq_false_or_eq_true (s.takes i) with ht | ht
  · have hlt := h.lt_of_takes ht
    rw [rTaken, if_pos ht, Option.toList_some, List.length_append, List.length_singleton]
    by_cases hz : d.off = 0
    · have := RdDesc.Fits.inWords_of_aligned hz
      simp only [hz, ne_eq, not_true_eq_false, and_false, if_false] at hcount
      omega
    · have hne := h.nonempty hb hz
      rw [if_pos ⟨hne, hz⟩] at hcount
      omega
  · have hall := (h.takes_or i hm).resolve_left (by rw [ht]; exact Bool.false_ne_true)
    rw [rTaken, ht, if_neg Bool.false_ne_true, Option.toList_none, List.append_nil]
    exact hall

/-- When all words have come, only the last beat is left. -/
theorem tail (h : Reading d ws k s) (hfit : d.Fits) (hl : ws.length = d.inWords)
    (i : RdDataIn p) : s.moves i = true ∧ s.bubble = false ∧ k + 1 = d.outBeats := by
  have hwords : 0 < d.inWords := Nat.succ_pos _
  have hm : s.moves i = true := by
    rw [moves, h.active, decide_eq_false (by omega)]
    exact Bool.or_true _
  have hb : s.bubble = false := by
    rw [h.bubble, decide_eq_false_iff_not]
    rintro ⟨rfl, _⟩
    exact absurd hl (Nat.ne_of_lt hwords)
  refine ⟨hm, hb, ?_⟩
  by_contra hmore
  have := h.lt_of_takes (h.takes_of_more hfit hm hb hmore)
  omega

theorem step_of_push (h : Reading d ws k s) (hm : s.moves i = true) (hb : s.bubble = false) :
    s.step i =
      { state := if s.outputLastCycle then .idle else .read
        cur := { s.cur with
          inputCycleCount := s.inputCountNext
          outputCycleCount := s.outputCountNext
          bubbleCycle := false }
        inputActive := s.inputActiveNext
        outputActive := s.outputActiveNext
        firstCycle := false
        outputLastCycle := s.outputCountNext == 0
        rresp := if s.outputLastCycle then 0 else s.rrespNext i
        statusTag := if s.outputLastCycle then s.cur.tag else s.statusTag
        statusError := if s.outputLastCycle then rdError (s.rrespNext i) else s.statusError
        statusValid := s.outputLastCycle
        rready := if s.outputLastCycle then false else i.treadyInt && s.inputActiveNext
        save := s.saveNext i } := by
  simp [RdData.step, h.state, hm, hb]

/-- The counter of the beats goes with them. -/
theorem outCount_step (h : Reading d ws k s) (hl : k + 1 ≠ d.outBeats) :
    s.outputCountNext.toNat + 1 + (k + 1) = d.outBeats ∧ s.outputActiveNext = true := by
  have hcount := h.outCount
  have hne : s.cur.outputCycleCount ≠ 0 := by
    intro h0
    rw [h0] at hcount
    exact hl (by change 0 + 1 + k = d.outBeats at hcount; omega)
  have hpos : s.cur.outputCycleCount.toNat ≠ 0 := fun h0 => hne (BitVec.eq_of_toNat_eq h0)
  refine ⟨?_, ?_⟩
  · rw [outputCountNext, h.outActive, if_pos rfl, toNat_sub_one hne]
    omega
  · rw [outputActiveNext, h.outActive, Bool.true_and, decide_eq_true_iff, BitVec.lt_def]
    exact Nat.pos_of_ne_zero hpos

/-- **A beat goes out that is not the last one.** -/
theorem push_more (h : Reading d ws k s) (hfit : d.Fits) (hm : s.moves i = true)
    (hb : s.bubble = false) (hl : k + 1 ≠ d.outBeats) :
    (s.beat i).out = d.out (chunk p.strbWidth d.off k
      (bytesOf ((ws ++ (s.rTaken i).toList).map Prod.fst)), false) ∧
    d.off + (k + 1) * p.strbWidth ≤ (ws ++ (s.rTaken i).toList).length * p.strbWidth ∧
    Reading d (ws ++ (s.rTaken i).toList) (k + 1) (s.step i) := by
  have hoff := RdDesc.Fits.off_lt (d := d)
  have ht := h.takes_of_more hfit hm hb hl
  have hlast : s.outputLastCycle = false := by rw [h.last, decide_eq_false hl]
  have htaken : s.rTaken i = some (i.rdata, i.rresp) := by rw [rTaken, if_pos ht]
  obtain ⟨hactive, hin⟩ := h.inCount_step ht
  obtain ⟨hout, houtActive⟩ := h.outCount_step hl
  have hcount := h.count
  have hwords : d.off + (k + 1) * p.strbWidth
      ≤ (ws ++ (s.rTaken i).toList).length * p.strbWidth := by
    rw [htaken, Option.toList_some, List.length_append, List.length_singleton, Nat.succ_mul,
      Nat.succ_mul]
    by_cases hz : d.off = 0
    · simp only [hz, ne_eq, not_true_eq_false, and_false, if_false, Nat.add_zero] at hcount
      rw [hz, hcount, Nat.zero_add]
    · have hne := h.nonempty hb hz
      rw [if_pos ⟨hne, hz⟩] at hcount
      rw [hcount, Nat.succ_mul]
      omega
  refine ⟨?_, hwords, ?_⟩
  · have hjoin := h.join i hb (le_refl p.strbWidth) (by rw [Nat.succ_mul] at hwords; omega)
    rw [take_toBytes (le_refl _)] at hjoin
    have hlen : (chunk p.strbWidth d.off k
        (bytesOf ((ws ++ (s.rTaken i).toList).map Prod.fst))).length = p.strbWidth := by
      rw [chunk, ← hjoin, length_toBytes]
    rw [RdBeat.out, beat, hlast, if_neg Bool.false_ne_true, kept_allOnes, hjoin, RdDesc.out, hlen,
      Nat.sub_self, BitVec.ushiftRight_zero, h.side]
    rfl
  · rw [h.step_of_push hm hb, hlast, htaken]
    have hresp := h.rresp_step i
    rw [htaken] at hresp
    have hlt := h.lt_of_takes ht
    refine
      { h with
        state := rfl
        le := ?_
        active := ?_
        inCount := ?_
        outCount := hout
        outActive := houtActive
        last := ?_
        bubble := ?_
        count := ?_
        save := ?_
        rresp := hresp
        rready := ?_ }
    · simpa using Nat.succ_le_of_lt hlt
    · simpa using hactive
    · simpa using hin
    · rw [Bool.beq_eq_decide_eq]
      refine decide_eq_decide.mpr ⟨fun h0 => ?_, fun h0 => BitVec.eq_of_toNat_eq ?_⟩
      · rw [h0] at hout
        change 0 + 1 + (k + 1) = d.outBeats at hout
        omega
      · show _ = 0
        omega
    · simp [RdData.bubble]
    · by_cases hz : d.off = 0
      · simpa [hz] using hcount
      · have hne := h.nonempty hb hz
        simpa [hz, hne] using hcount
    · intro w hw
      have : (i.rdata, i.rresp) = w := by simpa using hw
      rw [← this]
      exact if_pos ht
    · intro hr
      have hr' : s.inputActiveNext = true := (Bool.and_eq_true _ _ ▸ hr).2
      rw [hactive] at hr'
      simpa using of_decide_eq_true hr'

/-- **The last beat goes out**, and the status with it. -/
theorem push_last (h : Reading d ws k s) (hfit : d.Fits) (hm : s.moves i = true)
    (hb : s.bubble = false) (hl : k + 1 = d.outBeats) :
    (s.beat i).out = d.out (((bytesOf ((ws ++ (s.rTaken i).toList).map Prod.fst)).drop
      (d.off + k * p.strbWidth)).take d.lastLen, true) ∧
    Resting (s.step i) ∧ (s.step i).statusValid = true ∧ (s.step i).statusTag = d.tag ∧
    (s.step i).statusError = rdError (worstResp ((ws ++ (s.rTaken i).toList).map Prod.snd)) := by
  have hlast : s.outputLastCycle = true := by rw [h.last, decide_eq_true hl]
  have hlength := h.length_of_last hfit hm hb hl
  have hlen := hfit.len_eq
  have hfull := hfit.off_add_len_le
  rw [← hl, Nat.add_sub_cancel] at hlen
  refine ⟨?_, ?_, ?_, ?_, ?_⟩
  · have hjoin := h.join i hb (RdDesc.Fits.lastLen_le (d := d)) (by rw [hlength]; omega)
    have hkeep : s.lastKeep = BitVec.allOnes _ >>> (p.strbWidth - d.lastLen) := by
      have hnat := RdDesc.Fits.toNat_lastCycleOffset (d := d)
      rw [← h.lastCycleOffset] at hnat
      have hpos : 0 < s.cur.lastCycleOffset ↔ 0 < d.len.toNat % p.strbWidth := by
        rw [BitVec.lt_def, hnat]
        exact Iff.rfl
      rw [lastKeep, RdDesc.lastLen]
      by_cases hz : d.len.toNat % p.strbWidth = 0
      · rw [if_pos hz, if_neg (by rw [hpos]; omega), Nat.sub_self, BitVec.ushiftRight_zero]
      · rw [if_neg hz, if_pos (by rw [hpos]; omega), hnat]
    rw [take_toBytes RdDesc.Fits.lastLen_le] at hjoin
    have hbytes : (((bytesOf ((ws ++ (s.rTaken i).toList).map Prod.fst)).drop
        (d.off + k * p.strbWidth)).take d.lastLen).length = d.lastLen := by
      rw [← hjoin, length_toBytes]
    rw [RdBeat.out, beat, hlast, if_pos rfl, hkeep, kept_low _ RdDesc.Fits.lastLen_le, hjoin,
      RdDesc.out, hbytes, h.side]
  · rw [h.step_of_push hm hb, hlast]
    exact ⟨rfl, rfl, rfl⟩
  · rw [h.step_of_push hm hb, hlast]
  · rw [h.step_of_push hm hb, hlast]
    exact h.tag
  · rw [h.step_of_push hm hb, hlast, h.rresp_step i]
    rfl

/-- The beats that are out do not need more words than have come. -/
theorem covered (h : Reading d ws k s) {t : ℕ} (ht : t < k) :
    d.off + (t + 1) * p.strbWidth ≤ ws.length * p.strbWidth := by
  have hoff := RdDesc.Fits.off_lt (d := d)
  have hcount := h.count
  have hmul : (t + 1) * p.strbWidth ≤ k * p.strbWidth := Nat.mul_le_mul_right _ ht
  by_cases hz : d.off = 0
  · simp only [hz, ne_eq, not_true_eq_false, and_false, if_false, Nat.add_zero] at hcount
    rw [hz, hcount, Nat.zero_add]
    exact hmul
  · have hne : ws ≠ [] := fun h0 => by
      rw [h0, List.length_nil] at hcount
      omega
    rw [if_pos ⟨hne, hz⟩] at hcount
    rw [hcount, Nat.succ_mul k]
    omega

end Reading

/-! ### All descriptors -/

/-- The tag and the error of a status. -/
def status (s : RdData p) : Option (BitVec p.tagWidth × BitVec 4) :=
  if s.statusValid then some (s.statusTag, s.statusError) else none

/-- A descriptor and the words that have come for it. -/
abbrev Job (p : AxiDmaParams) : Type := RdDesc p × List (Word p)

def frameOf (x : Job p) : List (RdOut p) := x.1.frame (x.2.map Prod.fst)

def statusOf (x : Job p) : BitVec p.tagWidth × BitVec 4 :=
  (x.1.tag, rdError (worstResp (x.2.map Prod.snd)))

/-- The first `k` beats, from words that hold them. -/
def firstBeats (d : RdDesc p) (ws : List (Word p)) (k : ℕ) : List (RdOut p) :=
  (List.range k).map fun t => d.out (chunk p.strbWidth d.off t (bytesOf (ws.map Prod.fst)), false)

/-- The descriptors `started` have been begun, the words `rs` have come for them and the
beats `outs` and the status `sts` are out. -/
inductive Phase (s : RdData p) (started : List (RdDesc p)) (rs : List (Word p))
    (outs : List (RdOut p)) (sts : List (BitVec p.tagWidth × BitVec 4)) : Prop
  | rest (done : List (Job p)) (h : Resting s) (all : ∀ x ∈ done, x.2.length = x.1.inWords)
      (hd : started = done.map Prod.fst) (hr : rs = done.flatMap Prod.snd)
      (ho : outs = done.flatMap frameOf) (hs : sts = done.map statusOf)
  | read (done : List (Job p)) (d : RdDesc p) (ws : List (Word p)) (k : ℕ) (h : Reading d ws k s)
      (hfit : d.Fits) (all : ∀ x ∈ done, x.2.length = x.1.inWords)
      (hd : started = done.map Prod.fst ++ [d]) (hr : rs = done.flatMap Prod.snd ++ ws)
      (ho : outs = done.flatMap frameOf ++ firstBeats d ws k) (hs : sts = done.map statusOf)

/-- More words do not change the beats that are out. -/
theorem firstBeats_append (more : List (Word p))
    (h : ∀ t < k, d.off + (t + 1) * p.strbWidth ≤ ws.length * p.strbWidth) :
    firstBeats d (ws ++ more) k = firstBeats d ws k := by
  apply List.map_congr_left
  intro t ht
  rw [List.map_append, bytesOf_append, chunk_append]
  rw [length_bytesOf, List.length_map]
  exact h t (List.mem_range.mp ht)

theorem firstBeats_succ : firstBeats d ws (k + 1) = firstBeats d ws k
    ++ [d.out (chunk p.strbWidth d.off k (bytesOf (ws.map Prod.fst)), false)] := by
  rw [firstBeats, List.range_succ, List.map_append, List.map_singleton, firstBeats]

/-- The first beats and the last one. -/
theorem frameOf_eq (hfit : d.Fits) (hws : ws.length = d.inWords) (hl : k + 1 = d.outBeats) :
    frameOf (d, ws) = firstBeats d ws k
      ++ [d.out (((bytesOf (ws.map Prod.fst)).drop (d.off + k * p.strbWidth)).take d.lastLen,
        true)] := by
  rw [frameOf, hfit.frame_eq (by rw [List.length_map]; exact hws), ← hl, Nat.add_sub_cancel]
  rfl

theorem status_of_idle (h : s.state = .idle) : (s.step i).status = none := by
  simp [status, RdData.step, h]

variable {started : List (RdDesc p)} {rs : List (Word p)} {outs : List (RdOut p)}
  {sts : List (BitVec p.tagWidth × BitVec 4)}

theorem phase_reset : Phase (reset p) [] [] [] [] :=
  .rest [] resting_reset nofun rfl rfl rfl rfl

/-- **What a cycle does**, with the command of `pend` waiting. -/
theorem Phase.step (h : Phase s started rs outs sts) {pend : Option (RdDesc p)}
    (hc : i.cmdValid = pend.isSome) (hp : ∀ d ∈ pend, i.cmd = d.cmd ∧ d.Fits) :
    Phase (s.step i) (started ++ if s.cmdReady i then pend.toList else [])
      (rs ++ (s.rTaken i).toList) (outs ++ ((s.pushed i).map RdBeat.out).toList)
      (sts ++ (s.step i).status.toList) := by
  cases h with
  | rest done h all hd hr ho hs =>
    have hno : s.rTaken i = none := by rw [rTaken, h.takes i]; rfl
    have hpush : s.pushed i = none := by simp [pushed, h.state]
    rw [hno, hpush, status_of_idle h.state]
    simp only [Option.map_none, Option.toList_none, List.append_nil]
    cases pend with
    | none =>
      have hstay := h.stay hc
      have hready : s.cmdReady i = false := by rw [cmdReady, hc]; exact Bool.and_false _
      rw [hready, if_neg Bool.false_ne_true, List.append_nil]
      exact .rest done hstay all hd hr ho hs
    | some d =>
      obtain ⟨hcmd, hfit⟩ := hp d rfl
      have hready : s.cmdReady i = true := by rw [cmdReady, h.state, hc]; rfl
      rw [hready, if_pos rfl]
      refine .read done d [] 0 (h.begin hc hcmd hfit) hfit all ?_ ?_ ?_ hs
      · rw [hd]
        rfl
      · rw [hr, List.append_nil]
      · rw [ho]
        exact (List.append_nil _).symm
  | read done d ws k h hfit all hd hr ho hs =>
    have hready : s.cmdReady i = false := by rw [cmdReady, h.state]; rfl
    rw [hready, if_neg Bool.false_ne_true, List.append_nil]
    cases hm : s.moves i with
    | false =>
      have hstall := h.stall hm
      have hno : s.rTaken i = none := by
        rw [moves, Bool.or_eq_false_iff] at hm
        rw [rTaken, hm.1]
        rfl
      have hpush : s.pushed i = none := by simp [pushed, hm]
      have hst : (s.step i).status = none := by simp [status, RdData.step, h.state, hm]
      rw [hno, hpush, hst]
      simp only [Option.map_none, Option.toList_none, List.append_nil]
      exact .read done d ws k hstall hfit all hd hr ho hs
    | true =>
      cases hb : s.bubble with
      | true =>
        obtain ⟨_, hk, hread⟩ := h.save_first hm hb
        have hpush : s.pushed i = none := by simp [pushed, hb]
        have hst : (s.step i).status = none := by simp [status, RdData.step, h.state, hm, hb]
        rw [hpush, hst]
        simp only [Option.map_none, Option.toList_none, List.append_nil]
        refine .read done d _ k hread hfit all hd (by rw [hr, List.append_assoc]) ?_ hs
        rw [ho, hk]
        rfl
      | false =>
        have hpush : s.pushed i = some (s.beat i) := by simp [pushed, h.state, hm, hb]
        have hkeep := firstBeats_append (s.rTaken i).toList fun t ht => h.covered ht
        rw [hpush, Option.map_some, Option.toList_some]
        by_cases hl : k + 1 = d.outBeats
        · -- the last beat: the descriptor is done
          obtain ⟨hbeat, hrest, hvalid, htag, herr⟩ := h.push_last hfit hm hb hl
          have hlength := h.length_of_last hfit hm hb hl
          have hst : (s.step i).status = some (statusOf (d, ws ++ (s.rTaken i).toList)) := by
            rw [status, hvalid, if_pos rfl, htag, herr]
            rfl
          refine .rest (done ++ [(d, ws ++ (s.rTaken i).toList)]) hrest ?_ ?_ ?_ ?_ ?_
          · intro x hx
            rcases List.mem_append.mp hx with hx | hx
            · exact all x hx
            · rw [List.mem_singleton.mp hx]
              exact hlength
          · rw [hd, List.map_append]
            rfl
          · rw [hr, List.flatMap_append, List.append_assoc, List.flatMap_singleton]
          · rw [ho, hbeat, List.flatMap_append, List.flatMap_singleton,
              frameOf_eq hfit hlength hl, hkeep, List.append_assoc]
          · rw [hs, hst, List.map_append]
            rfl
        · obtain ⟨hbeat, _, hread⟩ := h.push_more hfit hm hb hl
          have hlast : s.outputLastCycle = false := by rw [h.last, decide_eq_false hl]
          have hst : (s.step i).status = none := by
            rw [status, h.step_of_push hm hb, hlast]
            rfl
          rw [hst, Option.toList_none, List.append_nil]
          refine .read done d _ (k + 1) hread hfit all hd (by rw [hr, List.append_assoc]) ?_ hs
          rw [ho, hbeat, firstBeats_succ, hkeep, List.append_assoc]

end RdData

end AxisSystolic
