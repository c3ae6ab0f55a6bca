import AxisSystolic.Sync.Ring

/-!
# The output FIFO of the engines

Both engines put their beats into a ring of 32 places, from which they go on to a register
that offers them.  The engine is told one cycle late when half of the ring is full, and
does not look at anything else: a beat that comes while the ring is full is lost.  So what
the FIFO does is a matter of its engine, and here is what one cycle of it does
(`held_step`, `count_step`).
-/

namespace AxisSystolic

open Sync

/-- The registers. -/
structure OutFifo (α : Type*) where
  ring : Ring 5 α
  halfFull : Bool
  mValid : Bool
  m : α

/-- What the engine puts in, and `ready` of the receiver. -/
structure OutFifoIn (α : Type*) where
  beat : Option α
  ready : Bool

namespace OutFifo

variable {α : Type*}

/-- `rstn` low.  The places are not reset, but are read only after they have been written.
Nor does the write engine reset `out_fifo_half_full_reg`, but it is idle then, and reads the
register only after a clock edge has set it from the pointers. -/
def reset (a : α) : OutFifo α := ⟨⟨fun _ => a, 0, 0⟩, false, false, a⟩

variable (s : OutFifo α) (i : OutFifoIn α)

/-- `out_fifo_full`. -/
def full : Bool := s.ring.wrPtr == s.ring.rdPtr ^^^ 0b100000

def empty : Bool := s.ring.wrPtr == s.ring.rdPtr

/-- What is put into the ring. -/
def pushed : Option α := if s.full then none else i.beat

/-- The register takes the oldest beat of the ring. -/
def pops : Bool := !s.empty && (!s.mValid || i.ready)

/-- What the receiver takes. -/
def given : Option α := if s.mValid && i.ready then some s.m else none

/-- A clock edge. -/
def step : OutFifo α where
  ring :=
    let rest := if s.pops i then s.ring.take else s.ring
    match s.pushed i with
    | some a => rest.put a
    | none => rest
  halfFull := decide (2 ^ 4 ≤ (s.ring.wrPtr - s.ring.rdPtr).toNat)
  mValid := s.pops i || s.mValid && !i.ready
  m := if s.pops i then s.ring.ahead 0 else s.m

/-- What has been put in and not yet been given out. -/
def held : List α := (if s.mValid then [s.m] else []) ++ s.ring.items

variable {s i}

theorem count_reset (a : α) : (reset a).ring.count = 0 := Ring.count_eq_zero.mpr rfl

theorem held_reset (a : α) : (reset a).held = [] :=
  List.length_eq_zero_iff.mp ((Ring.length_items).trans (count_reset a))

theorem full_iff : s.full = true ↔ s.ring.count = 32 := by
  have hxor : ∀ x : BitVec 6, x ^^^ 0b100000 = x + 32 := by decide
  rw [full, beq_iff_eq, hxor, Ring.count]
  constructor
  · intro h
    rw [h, BitVec.add_comm, BitVec.add_sub_cancel]
    rfl
  · intro h
    have hsub : s.ring.wrPtr - s.ring.rdPtr = 32 := BitVec.eq_of_toNat_eq h
    rw [← hsub, BitVec.add_comm, BitVec.sub_add_cancel]

theorem empty_iff : s.empty = true ↔ s.ring.count = 0 := by
  rw [empty, beq_iff_eq, Ring.count_eq_zero]

theorem pops_pos (h : s.pops i = true) : 0 < s.ring.count := by
  rw [pops, Bool.and_eq_true, Bool.not_eq_true'] at h
  apply Nat.pos_of_ne_zero
  intro h0
  rw [empty_iff.mpr h0] at h
  exact absurd h.1 Bool.true_eq_false.mp

/-- The ring after the register has taken from it. -/
theorem count_rest : (if s.pops i then s.ring.take else s.ring).count
    + (if s.pops i then 1 else 0) = s.ring.count := by
  cases h : s.pops i with
  | false => rfl
  | true => exact Ring.count_take (pops_pos h)

theorem count_rest_lt (hc : s.ring.count ≤ 32) {a : α} (ha : s.pushed i = some a) :
    (if s.pops i then s.ring.take else s.ring).count < 2 ^ 5 := by
  have hne : s.ring.count ≠ 32 := by
    intro h
    rw [pushed, if_pos (full_iff.mpr h)] at ha
    exact absurd ha nofun
  have := count_rest (s := s) (i := i)
  show _ < 32
  omega

theorem count_step (hc : s.ring.count ≤ 32) :
    (s.step i).ring.count + (if s.pops i then 1 else 0)
      = s.ring.count + (s.pushed i).toList.length := by
  rw [← count_rest (s := s) (i := i)]
  cases ha : s.pushed i with
  | none => simp [step, ha]
  | some a =>
    have hput := Ring.count_put a (count_rest_lt hc ha)
    simp only [step, ha, Option.toList_some, List.length_singleton]
    omega

/-- What is held and what is put in has been given out or is held then. -/
theorem held_step (hc : s.ring.count ≤ 32) :
    s.held ++ (s.pushed i).toList = (s.given i).toList ++ (s.step i).held := by
  have hitems : (s.step i).ring.items
      = (if s.pops i then s.ring.take else s.ring).items ++ (s.pushed i).toList := by
    cases ha : s.pushed i with
    | none => simp [step, ha]
    | some a =>
      simp only [step, ha]
      exact Ring.items_put a (count_rest_lt hc ha)
  rw [held, held, hitems, given]
  cases hp : s.pops i with
  | false =>
    cases hv : s.mValid <;> cases hr : i.ready <;> simp [step, hp, hv, hr]
  | true =>
    rw [Ring.items_take (pops_pos hp)]
    cases hv : s.mValid <;> cases hr : i.ready <;> simp [step, hp, hv, hr]
    simp [pops, hv, hr] at hp

/-- What is still to be done until all that is held is given out. -/
def rank (s : OutFifo α) : ℕ := 2 * s.ring.count + if s.mValid then 1 else 0

/-- When nothing is put in the FIFO runs down. -/
theorem rank_step (hc : s.ring.count ≤ 32) (hp : s.pushed i = none) :
    (s.step i).rank ≤ s.rank ∧ (i.ready = true → s.rank ≠ 0 → (s.step i).rank < s.rank) := by
  have hcount := count_step (i := i) hc
  rw [hp, Option.toList_none, List.length_nil, Nat.add_zero] at hcount
  have hvalid : (s.step i).mValid = (s.pops i || s.mValid && !i.ready) := rfl
  have hempty : s.empty = false → s.ring.count ≠ 0 := by
    intro he h0
    rw [empty_iff.mpr h0] at he
    exact absurd he Bool.true_eq_false.mp
  rw [rank, rank, hvalid]
  cases he : s.empty with
  | true =>
    have hpops : s.pops i = false := by rw [pops, he]; rfl
    have h0 := empty_iff.mp he
    rw [hpops, if_neg Bool.false_ne_true, Nat.add_zero] at hcount
    rw [hpops, Bool.false_or, hcount, h0]
    cases s.mValid <;> cases i.ready <;> simp
  | false =>
    have hne := hempty he
    cases hv : s.mValid <;> cases hr : i.ready <;> simp [pops, he, hv, hr] at hcount ⊢ <;> omega

/-- What is offered stays until it is taken. -/
theorem step_of_stall (hv : s.mValid = true) (hr : i.ready = false) :
    (s.step i).mValid = true ∧ (s.step i).m = s.m := by
  have hpops : s.pops i = false := by
    rw [pops, hv, hr]
    exact Bool.and_false _
  simp [step, hpops, hv, hr]

/-- What is held is offered in the next cycle, if it is not yet. -/
theorem mValid_step (hv : s.mValid = false) (hheld : s.held ≠ []) : (s.step i).mValid = true := by
  have he : s.empty = false := by
    by_contra he
    rw [Bool.not_eq_false, empty_iff] at he
    refine hheld (List.length_eq_zero_iff.mp ?_)
    rw [held, hv, if_neg Bool.false_ne_true, List.nil_append, Ring.length_items, he]
  simp [step, pops, he, hv]

end OutFifo

end AxisSystolic
