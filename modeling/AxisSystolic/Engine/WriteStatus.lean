import AxisSystolic.Engine.WriteControl
import AxisSystolic.Sync.Ring

/-!
# The responses of the write engine (`alex_axi_dma_wr.sv`)

The memory answers each burst with a response.  The entries of the bursts that are not yet
answered wait in a ring, and the last entry of a descriptor is reported as its status, with
the last error that there was among its responses (`settle`).

There are places for 32 entries.  A count of the bursts in flight keeps the engine from
beginning a burst when there may be no place for its entry, so none is lost
(`Keeps.step`).
-/

namespace AxisSystolic

open Sync

variable {p : AxiDmaParams}

/-- `m_axis_write_desc_status_*`. -/
structure WrReport (p : AxiDmaParams) where
  len : BitVec 32
  tag : BitVec p.tagWidth
  side : AxisSide p.side
  error : BitVec 4

/-- `DMA_ERROR_AXI_WR_SLVERR`, `DMA_ERROR_AXI_WR_DECERR` or `DMA_ERROR_NONE`. -/
def wrError (r : BitVec 2) : BitVec 4 := if r = 2 then 6 else if r = 3 then 7 else 0

def WrEntry.report (e : WrEntry p) (r : BitVec 2) : WrReport p := ⟨e.len, e.tag, e.side, wrError r⟩

structure WrStatusIn (p : AxiDmaParams) where
  entry : Option (WrEntry p)
  /-- `inc_active`. -/
  inc : Bool
  bresp : BitVec 2
  bvalid : Bool

/-- The registers. -/
structure WrStatus (p : AxiDmaParams) where
  fifo : Ring 5 (WrEntry p)
  bready : Bool
  bresp : BitVec 2
  activeCount : BitVec 6
  activeAv : Bool
  report : WrReport p
  valid : Bool

namespace WrStatus

/-- The places are not reset, but are read only after they have been written. -/
def reset (p : AxiDmaParams) : WrStatus p where
  fifo := ⟨fun _ => ⟨0, 0, p.sideReset, false⟩, 0, 0⟩
  bready := false
  bresp := 0
  activeCount := 0
  activeAv := true
  report := ⟨0, 0, p.sideReset, 0⟩
  valid := false

variable (s : WrStatus p) (i : WrStatusIn p)

def nonempty : Bool := s.fifo.wrPtr != s.fifo.rdPtr

/-- A response is taken. -/
def takes : Bool := s.bready && i.bvalid

def pops : Bool := s.nonempty && s.takes i

/-- `bresp_next`, as far as the responses say. -/
def brespNext : BitVec 2 := if s.takes i && respError i.bresp then i.bresp else s.bresp

/-- The oldest entry. -/
def head : WrEntry p := s.fifo.ahead 0

/-- A clock edge. -/
def step : WrStatus p where
  fifo :=
    let rest := if s.pops i then s.fifo.take else s.fifo
    match i.entry with
    | some e => rest.put e
    | none => rest
  bready := s.nonempty && !s.takes i
  bresp := if s.pops i && s.head.last then 0 else s.brespNext i
  activeCount :=
    if s.activeCount < 32 ∧ i.inc ∧ ¬s.pops i then s.activeCount + 1
    else if 0 < s.activeCount ∧ ¬i.inc ∧ s.pops i then s.activeCount - 1
    else s.activeCount
  activeAv :=
    if s.activeCount < 32 ∧ i.inc ∧ ¬s.pops i then decide (s.activeCount < 31)
    else if 0 < s.activeCount ∧ ¬i.inc ∧ s.pops i then true
    else decide (s.activeCount < 32)
  report := if s.pops i then s.head.report (s.brespNext i) else s.report
  valid := s.pops i && s.head.last

/-- The response that is taken. -/
def respTaken : Option (BitVec 2) := if s.takes i then some i.bresp else none

/-- The status that is reported. -/
def status : Option (WrReport p) := if s.valid then some s.report else none

end WrStatus

/-! ### Entries and responses -/

/-- A response for an entry: what is kept of the errors, and what has been reported. -/
def settle (a : BitVec 2 × List (WrReport p)) (x : WrEntry p × BitVec 2) :
    BitVec 2 × List (WrReport p) :=
  let r := if respError x.2 then x.2 else a.1
  if x.1.last then (0, a.2 ++ [x.1.report r]) else (r, a.2)

/-- All of them, from the first one on. -/
def settled (xs : List (WrEntry p × BitVec 2)) : BitVec 2 × List (WrReport p) :=
  xs.foldl settle (0, [])

theorem settled_append (xs : List (WrEntry p × BitVec 2)) (x : WrEntry p × BitVec 2) :
    settled (xs ++ [x]) = settle (settled xs) x := List.foldl_concat ..

/-- What comes behind the ones that are paired off does not matter. -/
theorem zip_append_of_le {α β : Type*} {xs : List α} {ys : List β} (h : ys.length ≤ xs.length)
    (more : List α) : (xs ++ more).zip ys = xs.zip ys := by
  induction ys generalizing xs with
  | nil => rw [List.zip_nil_right, List.zip_nil_right]
  | cons y ys ih =>
    cases xs with
    | nil => exact absurd h (Nat.not_succ_le_zero _)
    | cons x xs => rw [List.cons_append, List.zip_cons_cons, List.zip_cons_cons,
        ih (Nat.le_of_succ_le_succ h)]

/-- The next one is paired off. -/
theorem zip_concat {α β : Type*} {xs : List α} {ys : List β} {x : α}
    (h : xs[ys.length]? = some x) (y : β) : xs.zip (ys ++ [y]) = xs.zip ys ++ [(x, y)] := by
  induction ys generalizing xs with
  | nil =>
    cases xs with
    | nil => cases h
    | cons z xs =>
      obtain rfl : z = x := Option.some.inj h
      rw [List.nil_append, List.zip_cons_cons, List.zip_nil_right, List.zip_nil_right]
      rfl
  | cons z ys ih =>
    cases xs with
    | nil => cases h
    | cons w xs => rw [List.cons_append, List.zip_cons_cons, List.zip_cons_cons, ih h]; rfl

namespace WrStatus

variable {s : WrStatus p} {i : WrStatusIn p} {begun : ℕ} {es : List (WrEntry p)}
  {rs : List (BitVec 2)} {sts : List (WrReport p)}

/-- `begun` bursts have been begun, entries `es` made and responses `rs` taken; `sts` are the
status, with the one being reported. -/
structure Keeps (begun : ℕ) (es : List (WrEntry p)) (rs : List (BitVec 2))
    (sts : List (WrReport p)) (s : WrStatus p) : Prop where
  count : s.activeCount.toNat + rs.length = begun
  le : s.activeCount.toNat ≤ 32
  av : s.activeAv = decide (s.activeCount.toNat < 32)
  items : s.fifo.items = es.drop rs.length
  answered : rs.length ≤ es.length
  entries : es.length ≤ begun
  ready : s.bready = true → rs.length < es.length
  settled : (s.bresp, sts) = settled (es.zip rs)

theorem keeps_reset : Keeps 0 [] [] [] (reset p) := by
  refine ⟨rfl, Nat.zero_le _, rfl, ?_, Nat.le_refl 0, Nat.le_refl 0, nofun, rfl⟩
  exact List.length_eq_zero_iff.mp (Ring.length_items.trans (Ring.count_eq_zero.mpr rfl))

namespace Keeps

theorem ring_count (h : Keeps begun es rs sts s) : s.fifo.count = es.length - rs.length := by
  rw [← Ring.length_items, h.items, List.length_drop]

theorem nonempty_iff (h : Keeps begun es rs sts s) :
    s.nonempty = true ↔ rs.length < es.length := by
  rw [WrStatus.nonempty, bne_iff_ne, ne_eq, ← Ring.count_eq_zero, h.ring_count]
  omega

theorem lt_of_takes (h : Keeps begun es rs sts s) (ht : s.takes i = true) :
    rs.length < es.length := by
  rw [takes, Bool.and_eq_true] at ht
  exact h.ready ht.1

/-- A response is only taken when an entry waits for it. -/
theorem pops_eq (h : Keeps begun es rs sts s) : s.pops i = s.takes i := by
  cases ht : s.takes i with
  | false =>
    rw [pops, ht]
    exact Bool.and_false _
  | true =>
    rw [pops, h.nonempty_iff.mpr (h.lt_of_takes ht), ht]
    rfl

/-- The entry that the response is for. -/
theorem getElem?_head (h : Keeps begun es rs sts s) (hlt : rs.length < es.length) :
    es[rs.length]? = some s.head := by
  have hpos : 0 < s.fifo.count := by
    rw [h.ring_count]
    omega
  have hitems := h.items
  rw [Ring.items_take hpos] at hitems
  have hfirst := congrArg List.head? hitems
  rw [List.head?_cons, List.head?_drop] at hfirst
  exact hfirst.symm

theorem step_settled (h : Keeps begun es rs sts s) (i : WrStatusIn p) :
    ((s.step i).bresp, sts ++ (s.step i).status.toList)
      = AxisSystolic.settled ((es ++ i.entry.toList).zip (rs ++ (s.respTaken i).toList)) := by
  have hpops := h.pops_eq (i := i)
  cases ht : s.takes i with
  | false =>
    have hstep : (s.step i).bresp = s.bresp ∧ (s.step i).status = none := by
      simp [step, status, hpops, ht, brespNext]
    rw [respTaken, ht, if_neg Bool.false_ne_true, Option.toList_none, List.append_nil,
      zip_append_of_le h.answered, ← h.settled, hstep.1, hstep.2, Option.toList_none,
      List.append_nil]
  | true =>
    rw [ht] at hpops
    have hlt := h.lt_of_takes ht
    have hle : (rs ++ [i.bresp]).length ≤ es.length := by
      rw [List.length_append, List.length_singleton]
      exact hlt
    rw [respTaken, ht, if_pos rfl, Option.toList_some, zip_append_of_le hle,
      zip_concat (h.getElem?_head hlt), settled_append, ← h.settled, settle]
    cases hl : s.head.last with
    | false => simp [step, status, hpops, hl, brespNext, ht]
    | true => simp [step, status, hpops, hl, brespNext, ht]

/-- The entries that wait for a response. -/
theorem items_step (h : Keeps begun es rs sts s)
    (hentry : i.entry.isSome = true → es.length < begun) : (s.step i).fifo.items
      = (es ++ i.entry.toList).drop (rs ++ (s.respTaken i).toList).length := by
  have hle := h.le
  have hcount := h.count
  have hring := h.ring_count
  have hanswered := h.answered
  -- what is left after the response
  have hrest : (if s.pops i then s.fifo.take else s.fifo).items
      = es.drop (rs ++ (s.respTaken i).toList).length ∧
      (rs ++ (s.respTaken i).toList).length ≤ es.length := by
    rw [h.pops_eq, respTaken]
    cases ht : s.takes i with
    | false =>
      rw [if_neg Bool.false_ne_true, if_neg Bool.false_ne_true, Option.toList_none, List.append_nil]
      exact ⟨h.items, hanswered⟩
    | true =>
      have hlt := h.lt_of_takes ht
      have hitems := h.items
      rw [Ring.items_take (by omega)] at hitems
      rw [if_pos rfl, if_pos rfl, Option.toList_some, List.length_append, List.length_singleton,
        ← List.tail_drop, ← hitems]
      exact ⟨rfl, hlt⟩
  have hfifo : (s.step i).fifo = match i.entry with
      | some e => (if s.pops i then s.fifo.take else s.fifo).put e
      | none => if s.pops i then s.fifo.take else s.fifo := rfl
  rw [hfifo, List.drop_append_of_le_length hrest.2, ← hrest.1]
  cases he : i.entry with
  | none => rw [Option.toList_none, List.append_nil]
  | some e =>
    rw [he] at hentry
    have hlt := hentry rfl
    refine Ring.items_put e ?_
    rw [← Ring.length_items, hrest.1, List.length_drop, List.length_append]
    show _ < 32
    omega

/-- The count goes with what is begun and what is answered. -/
theorem count_step (h : Keeps begun es rs sts s) (hinc : i.inc = true → s.activeAv = true) :
    (s.step i).activeCount.toNat + (rs ++ (s.respTaken i).toList).length
        = (begun + if i.inc then 1 else 0) ∧
      (s.step i).activeCount.toNat ≤ 32 ∧
      (s.step i).activeAv = decide ((s.step i).activeCount.toNat < 32) := by
  have hle := h.le
  have hcount := h.count
  have hentries := h.entries
  have hlt32 : s.activeCount < 32 ↔ s.activeCount.toNat < 32 := BitVec.lt_def
  have hlt31 : s.activeCount < 31 ↔ s.activeCount.toNat < 31 := BitVec.lt_def
  have hpos : 0 < s.activeCount ↔ 0 < s.activeCount.toNat := BitVec.lt_def
  have hresp : (rs ++ (s.respTaken i).toList).length
      = rs.length + if s.takes i then 1 else 0 := by
    rw [List.length_append, respTaken]
    cases s.takes i <;> rfl
  have hnext : (s.step i).activeCount = (if s.activeCount < 32 ∧ i.inc ∧ ¬s.pops i then
        s.activeCount + 1 else if 0 < s.activeCount ∧ ¬i.inc ∧ s.pops i then s.activeCount - 1
      else s.activeCount) ∧ (s.step i).activeAv = (if s.activeCount < 32 ∧ i.inc ∧ ¬s.pops i then
        decide (s.activeCount < 31) else if 0 < s.activeCount ∧ ¬i.inc ∧ s.pops i then true
      else decide (s.activeCount < 32)) := ⟨rfl, rfl⟩
  rw [hnext.1, hnext.2, hresp, h.pops_eq]
  simp only [hlt32, hlt31, hpos]
  cases hi : i.inc with
  | true =>
    have hlow : s.activeCount.toNat < 32 := by
      have hav := hinc hi
      rw [h.av] at hav
      exact of_decide_eq_true hav
    cases ht : s.takes i with
    | true => simp [hlow, ← hcount]; omega
    | false =>
      have hadd : (s.activeCount + 1).toNat = s.activeCount.toNat + 1 := by
        rw [BitVec.toNat_add]
        exact Nat.mod_eq_of_lt (show s.activeCount.toNat + 1 < 64 by omega)
      simp [hlow, ← hcount]
      omega
  | false =>
    cases ht : s.takes i with
    | true =>
      have hlt := h.lt_of_takes ht
      have hne : s.activeCount ≠ 0 := by
        intro h0
        rw [h0] at hcount
        have : (0 : BitVec 6).toNat = 0 := rfl
        omega
      have hsub := toNat_sub_one hne
      have hgt : 0 < s.activeCount.toNat := by omega
      simp [hgt, ← hcount]
      omega
    | false => simp [← hcount]; omega

/-- Bursts are begun only when the count says that there is a place, and an entry is made
for each of them at most once. -/
protected theorem step (h : Keeps begun es rs sts s) (hinc : i.inc = true → s.activeAv = true)
    (hentry : i.entry.isSome = true → es.length < begun) :
    Keeps (begun + if i.inc then 1 else 0) (es ++ i.entry.toList)
      (rs ++ (s.respTaken i).toList) (sts ++ (s.step i).status.toList) (s.step i) := by
  have hentries := h.entries
  have hanswered := h.answered
  obtain ⟨hcount, hle, hav⟩ := h.count_step hinc
  have hresp : (rs ++ (s.respTaken i).toList).length
      = rs.length + if s.takes i then 1 else 0 := by
    rw [List.length_append, respTaken]
    cases s.takes i <;> rfl
  refine ⟨hcount, hle, hav, h.items_step hentry, ?_, ?_, ?_, h.step_settled i⟩
  · rw [hresp, List.length_append]
    split
    · next ht => have := h.lt_of_takes ht; omega
    · omega
  · rw [List.length_append]
    cases he : i.entry with
    | none => simp; omega
    | some e =>
      have := hentry (by rw [he]; rfl)
      simp; omega
  · intro hready
    have hnext : (s.step i).bready = (s.nonempty && !s.takes i) := rfl
    rw [hnext, Bool.and_eq_true, Bool.not_eq_true', h.nonempty_iff] at hready
    rw [hresp, hready.2, if_neg Bool.false_ne_true, List.length_append]
    omega

end Keeps

end WrStatus

end AxisSystolic
