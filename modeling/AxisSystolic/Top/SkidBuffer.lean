import AxisSystolic.Sync.Fifo
import Mathlib.Data.BitVec

/-!
# The skid buffer (`skid_buffer.sv`)

A register stage between two streams that registers `valid` and `ready` alike.
The next state, the registered `m_valid` and `s_ready`, and the two data
registers are written in separate blocks; `Agrees` says how they go together.
The buffer then is a queue of two places.

In the first cycle after a reset `s_ready` is still low while the state is
`EMPTY`, and a beat offered then would be stored without having been accepted,
so the `s` side must stay quiet in that cycle (`QuietStart`).
-/

namespace AxisSystolic

open Sync

/-- `EMPTY`, `PARTIAL` and `FULL`. -/
inductive SkidState where
  | empty | partFull | full
deriving DecidableEq

/-- The registers. -/
structure SkidBuffer (WIDTH : ℕ) where
  state : SkidState
  mValid : Bool
  sReady : Bool
  buffer : BitVec WIDTH
  mData : BitVec WIDTH

/-- The inputs of a cycle. -/
structure SkidIn (WIDTH : ℕ) where
  sValid : Bool
  mReady : Bool
  sData : BitVec WIDTH

namespace SkidBuffer

variable {WIDTH : ℕ}

/-- `rstn` low. -/
def reset (WIDTH : ℕ) : SkidBuffer WIDTH where
  state := .empty
  mValid := false
  sReady := false
  buffer := 0
  mData := 0

variable (s : SkidBuffer WIDTH) (i : SkidIn WIDTH)

def stateNext : SkidState :=
  match s.state with
  | .empty => if i.sValid then .partFull else .empty
  | .partFull =>
    if !i.mReady && i.sValid then .full
    else if i.mReady && !i.sValid then .empty
    else .partFull
  | .full => if i.mReady then .partFull else .full

/-- A clock edge. -/
def step : SkidBuffer WIDTH where
  state := s.stateNext i
  mValid := s.stateNext i != .empty
  sReady := s.stateNext i != .full
  buffer := if s.state = .partFull ∧ s.stateNext i = .full then i.sData else s.buffer
  mData :=
    match s.state with
    | .empty => if s.stateNext i = .partFull then i.sData else s.mData
    | .partFull => if i.mReady && i.sValid then i.sData else s.mData
    | .full => if i.mReady then s.buffer else s.mData

/-- What is accepted on the `s` side, and delivered on the `m` side. -/
def sTaken : Option (BitVec WIDTH) := if i.sValid && s.sReady then some i.sData else none
def mTaken : Option (BitVec WIDTH) := if s.mValid && i.mReady then some s.mData else none

/-- The items held, the next to be delivered first. -/
def held : List (BitVec WIDTH) :=
  match s.state with
  | .empty => []
  | .partFull => [s.mData]
  | .full => [s.mData, s.buffer]

end SkidBuffer

/-- The clocked machine of `skid_buffer`. -/
def skidBuffer (WIDTH : ℕ) : Machine (SkidBuffer WIDTH) (SkidIn WIDTH) where
  reset := SkidBuffer.reset WIDTH
  step := SkidBuffer.step

/-- Its two sides. -/
def skidQueue (WIDTH : ℕ) : Buffer (skidBuffer WIDTH) (BitVec WIDTH) where
  held := SkidBuffer.held
  put := SkidBuffer.sTaken
  got := SkidBuffer.mTaken

/-! ### One cycle -/

namespace SkidBuffer

variable {WIDTH : ℕ} {s : SkidBuffer WIDTH} {i : SkidIn WIDTH} {fresh : Prop}

/-- How the registers go together; `fresh` says that the registers are those of
a reset. -/
structure Agrees (fresh : Prop) (s : SkidBuffer WIDTH) : Prop where
  mValid : s.mValid = true ↔ s.state ≠ .empty
  sReady : s.sReady = true ↔ s.state ≠ .full ∧ ¬ fresh
  fresh : fresh → s.state = .empty

theorem agrees_reset (h : fresh) : Agrees fresh (reset WIDTH) where
  mValid := by simp [reset]
  sReady := by simp [reset, h]
  fresh _ := rfl

theorem agrees_step (s : SkidBuffer WIDTH) (i : SkidIn WIDTH) (h : ¬ fresh) :
    Agrees fresh (s.step i) where
  mValid := by simp [step]
  sReady := by simp [step, h]
  fresh hf := absurd hf h

namespace Agrees

theorem sReady_of_empty (h : Agrees fresh s) (hs : s.state = .empty)
    (hq : fresh → i.sValid = false) : (i.sValid && s.sReady) = i.sValid := by
  cases hv : i.sValid with
  | false => rfl
  | true =>
    have hf : ¬ fresh := fun hf => by simp [hq hf] at hv
    rw [h.sReady.mpr ⟨by simp [hs], hf⟩]
    rfl

/-- An empty buffer only takes in. -/
theorem moves_empty (h : Agrees fresh s) (hs : s.state = .empty)
    (hq : fresh → i.sValid = false) : (skidQueue WIDTH).Moves 2 s i := by
  have hm : s.mValid = false := by
    rw [← Bool.not_eq_true, h.mValid]
    simp [hs]
  have hput : s.sTaken i = if i.sValid then some i.sData else none := by
    rw [sTaken, h.sReady_of_empty hs hq]
  have hgot : s.mTaken i = none := by simp [mTaken, hm]
  have hheld : s.held = [] := by simp [held, hs]
  refine ⟨?_, ?_, ?_⟩
  · show (s.step i).held = _
    cases hv : i.sValid <;>
      simp [Buffer.queueIn, FifoIn.next, skidQueue, hput, hgot, held, step, stateNext, hs, hv]
  · show s.mTaken i = _
    simp [Buffer.queueIn, FifoIn.got, skidQueue, hgot]
  · intro _
    show s.held.length < 2
    simp [hheld]

/-- A buffer with one item may do both. -/
theorem moves_partFull (h : Agrees fresh s) (hs : s.state = .partFull) :
    (skidQueue WIDTH).Moves 2 s i := by
  have hf : ¬ fresh := fun hf => by simp [h.fresh hf] at hs
  have hm : s.mValid = true := h.mValid.mpr (by simp [hs])
  have hr : s.sReady = true := h.sReady.mpr ⟨by simp [hs], hf⟩
  have hput : s.sTaken i = if i.sValid then some i.sData else none := by simp [sTaken, hr]
  have hgot : s.mTaken i = if i.mReady then some s.mData else none := by simp [mTaken, hm]
  have hheld : s.held = [s.mData] := by simp [held, hs]
  refine ⟨?_, ?_, ?_⟩
  · show (s.step i).held = _
    cases hv : i.sValid <;> cases hy : i.mReady <;>
      simp [Buffer.queueIn, FifoIn.next, skidQueue, hput, hgot, held, step, stateNext, hs, hv, hy]
  · show s.mTaken i = _
    cases hy : i.mReady <;> simp [Buffer.queueIn, FifoIn.got, skidQueue, hgot, hheld, hy]
  · intro _
    show s.held.length < 2
    simp [hheld]

/-- A full buffer only gives out. -/
theorem moves_full (h : Agrees fresh s) (hs : s.state = .full) :
    (skidQueue WIDTH).Moves 2 s i := by
  have hm : s.mValid = true := h.mValid.mpr (by simp [hs])
  have hr : s.sReady = false := by
    rw [← Bool.not_eq_true, h.sReady]
    simp [hs]
  have hput : s.sTaken i = none := by simp [sTaken, hr]
  have hgot : s.mTaken i = if i.mReady then some s.mData else none := by simp [mTaken, hm]
  have hheld : s.held = [s.mData, s.buffer] := by simp [held, hs]
  refine ⟨?_, ?_, ?_⟩
  · show (s.step i).held = _
    cases hy : i.mReady <;>
      simp [Buffer.queueIn, FifoIn.next, skidQueue, hput, hgot, held, step, stateNext, hs, hy]
  · show s.mTaken i = _
    cases hy : i.mReady <;> simp [Buffer.queueIn, FifoIn.got, skidQueue, hgot, hheld, hy]
  · intro hp
    rw [show ((skidQueue WIDTH).queueIn s i).put = none from hput] at hp
    cases hp

theorem moves (h : Agrees fresh s) (hq : fresh → i.sValid = false) :
    (skidQueue WIDTH).Moves 2 s i := by
  cases hs : s.state with
  | empty => exact h.moves_empty hs hq
  | partFull => exact h.moves_partFull hs
  | full => exact h.moves_full hs

/-- An item that is not taken is offered again. -/
theorem step_of_stall (h : Agrees fresh s) (hv : s.mValid = true) (hr : i.mReady = false) :
    (s.step i).mValid = true ∧ (s.step i).mData = s.mData := by
  have hne : s.state ≠ .empty := h.mValid.mp hv
  cases hs : s.state with
  | empty => exact absurd hs hne
  | partFull => cases hsv : i.sValid <;> simp [step, stateNext, hs, hr, hsv]
  | full => simp [step, stateNext, hs, hr]

end Agrees

end SkidBuffer

/-! ### Runs -/

/-- The source offers nothing in the first cycle after a reset. -/
def QuietStart {WIDTH : ℕ} (v : ℕ → WithRstn (SkidIn WIDTH)) : Prop :=
  ∀ t, (v t).rstn = true → Machine.AfterReset v t → (v t).val.sValid = false

section Runs

variable {WIDTH : ℕ} {v : ℕ → WithRstn (SkidIn WIDTH)}

theorem agrees_run (v : ℕ → WithRstn (SkidIn WIDTH)) (t : ℕ) :
    SkidBuffer.Agrees (Machine.AfterReset v t) ((skidBuffer WIDTH).resettable.state v t) := by
  cases t with
  | zero => exact SkidBuffer.agrees_reset trivial
  | succ t =>
    cases hr : (v t).rstn with
    | false =>
      rw [Machine.resettable_state_succ_of_reset hr]
      exact SkidBuffer.agrees_reset hr
    | true =>
      rw [Machine.resettable_state_succ_of_rstn hr]
      apply SkidBuffer.agrees_step
      show ¬ (v t).rstn = false
      simp [hr]

theorem skidQueue_refines (hq : QuietStart v) : (skidQueue WIDTH).Refines 2 v where
  reset := rfl
  moves t hr := (agrees_run v t).moves (hq t hr)

/-- **The skid buffer is a queue of two places, it holds what it offers, and it
refuses only when it is full.** -/
theorem skid_fifo {WIDTH : ℕ} (v : ℕ → WithRstn (SkidIn WIDTH)) (hq : QuietStart v) (t : ℕ) :
    let s := (skidBuffer WIDTH).resettable.state v
    ((skidBuffer WIDTH).sinceReset v SkidBuffer.sTaken t
        = (skidBuffer WIDTH).sinceReset v SkidBuffer.mTaken t ++ (s t).held ∧
      (s t).held.length ≤ 2) ∧
    ((v t).rstn = true → (s t).mValid = true → (v t).val.mReady = false →
      (s (t + 1)).mValid = true ∧ (s (t + 1)).mData = (s t).mData) ∧
    ((s t).sReady = false → (s t).held.length = 2 ∨ Machine.AfterReset v t) := by
  intro s
  have hrefines := skidQueue_refines hq
  have hagrees := agrees_run v t
  refine ⟨⟨hrefines.balance t, hrefines.length_held_le t⟩, ?_, ?_⟩
  · intro hr hv hy
    have hstep : s (t + 1) = (s t).step (v t).val := Machine.resettable_state_succ_of_rstn hr
    rw [hstep]
    exact hagrees.step_of_stall hv hy
  · intro hr
    by_cases hf : Machine.AfterReset v t
    · exact Or.inr hf
    · left
      have hfull : (s t).state = .full := by
        by_contra hne
        rw [hagrees.sReady.mpr ⟨hne, hf⟩] at hr
        cases hr
      rw [SkidBuffer.held, hfull]
      rfl

/-- Two items are accepted while nothing is taken, and after one delivery the
buffer is reset. -/
def stalledSkid : ℕ → WithRstn (SkidIn 8)
  | 1 => ⟨true, true, false, 1⟩
  | 2 => ⟨true, true, false, 2⟩
  | 4 => ⟨true, false, true, 0⟩
  | 5 => ⟨false, false, true, 0⟩
  | _ => ⟨true, false, false, 0⟩

theorem stalledSkid_quietStart : QuietStart stalledSkid := by
  intro t _ hf
  rcases t with _ | _ | _ | t
  · rfl
  · cases hf
  · cases hf
  · unfold stalledSkid
    split <;> first | rfl | omega

theorem stalledSkid_fifo :
    let s := (skidBuffer 8).resettable.state stalledSkid
    (skidBuffer 8).sinceReset stalledSkid SkidBuffer.sTaken 3
        = (skidBuffer 8).sinceReset stalledSkid SkidBuffer.mTaken 3 ++ (s 3).held ∧
      (s 4).mValid = true ∧ (s 4).mData = (s 3).mData ∧ (s 3).held.length = 2 := by
  obtain ⟨⟨hbalance, _⟩, hstable, hfull⟩ := skid_fifo stalledSkid stalledSkid_quietStart 3
  refine ⟨hbalance, ?_, ?_, ?_⟩
  · exact (hstable rfl (by decide) rfl).1
  · exact (hstable rfl (by decide) rfl).2
  · exact (hfull (by decide)).resolve_right (by unfold Machine.AfterReset; decide)

end Runs

end AxisSystolic
