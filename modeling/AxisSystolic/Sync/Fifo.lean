import AxisSystolic.Sync.Machine

/-!
# The queue behind a buffer

A queue takes an element in at its back and gives one out at its front, and may
do both in one cycle.  What has gone in is what has come out followed by what is
held (`fifo_balance`).  A queue of `n` places takes nothing in while `n`
elements are held (`Fits`), and so never holds more (`fifo_length_le`).

A buffer refines the queue if what it holds moves as the queue does
(`Buffer.Refines`); what it takes in and gives out then is what the queue does.
-/

namespace Sync

variable {σ ι α : Type*}

/-- What happens to a queue in a cycle. -/
structure FifoIn (α : Type*) where
  put : Option α
  take : Bool

namespace FifoIn

variable (q : List α) (i : FifoIn α)

/-- What comes out. -/
def got : Option α := if i.take then q.head? else none

def next : List α := (if i.take then q.tail else q) ++ i.put.toList

/-- The queue is not full when something is put into it. -/
def Fits (n : ℕ) : Prop := i.put.isSome = true → q.length < n

variable {q i}

theorem got_append_next : (i.got q).toList ++ i.next q = q ++ i.put.toList := by
  unfold got next
  cases i.take with
  | false => rfl
  | true =>
    cases q with
    | nil => rfl
    | cons a q => rfl

theorem length_next_le {n : ℕ} (h : i.Fits q n) (hq : q.length ≤ n) : (i.next q).length ≤ n := by
  have htail : (if i.take then q.tail else q).length ≤ q.length := by
    cases i.take with
    | false => exact le_rfl
    | true => exact List.length_tail ▸ Nat.sub_le _ _
  unfold next
  rw [List.length_append]
  cases hp : i.put with
  | none =>
    rw [Option.toList_none, List.length_nil]
    omega
  | some a =>
    have := h (by rw [hp]; rfl)
    rw [Option.toList_some, List.length_singleton]
    omega

end FifoIn

/-- The queue as a clocked machine. -/
def fifo : Machine (List α) (FifoIn α) where
  reset := []
  step q i := i.next q

section Runs

variable {v : ℕ → WithRstn (FifoIn α)}

/-- What has gone in since the last reset has come out or is held. -/
theorem fifo_balance (t : ℕ) : fifo.sinceReset v (fun _ i => i.put) t
    = fifo.sinceReset v (fun q i => i.got q) t ++ fifo.resettable.state v t := by
  induction t with
  | zero => rfl
  | succ t ih =>
    cases h : (v t).rstn with
    | false =>
      rw [Machine.sinceReset_succ_of_reset h, Machine.sinceReset_succ_of_reset h,
        Machine.resettable_state_succ_of_reset h]
      rfl
    | true =>
      rw [Machine.sinceReset_succ_of_rstn h, Machine.sinceReset_succ_of_rstn h,
        Machine.resettable_state_succ_of_rstn h, ih, List.append_assoc, List.append_assoc]
      exact congrArg _ FifoIn.got_append_next.symm

theorem fifo_length_le {n : ℕ}
    (h : ∀ t, (v t).rstn = true → (v t).val.Fits (fifo.resettable.state v t) n) (t : ℕ) :
    (fifo.resettable.state v t).length ≤ n := by
  induction t with
  | zero => exact Nat.zero_le n
  | succ t ih =>
    cases hr : (v t).rstn with
    | false =>
      rw [Machine.resettable_state_succ_of_reset hr]
      exact Nat.zero_le n
    | true =>
      rw [Machine.resettable_state_succ_of_rstn hr]
      exact FifoIn.length_next_le (h t hr) ih

end Runs

/-! ### Buffers -/

/-- A buffer `M` holds `held`, takes `put` in and gives `got` out. -/
structure Buffer (M : Machine σ ι) (α : Type*) where
  held : σ → List α
  put : σ → ι → Option α
  got : σ → ι → Option α

namespace Buffer

variable {M : Machine σ ι} (B : Buffer M α)

/-- What a cycle of the buffer does to the queue. -/
def queueIn (s : σ) (i : ι) : FifoIn α := ⟨B.put s i, (B.got s i).isSome⟩

/-- A step of the buffer is one of the queue of `n` places. -/
structure Moves (n : ℕ) (s : σ) (i : ι) : Prop where
  held : B.held (M.step s i) = (B.queueIn s i).next (B.held s)
  got : B.got s i = (B.queueIn s i).got (B.held s)
  fits : (B.queueIn s i).Fits (B.held s) n

/-- The queue that runs beside the buffer. -/
def queueRun (v : ℕ → WithRstn ι) (t : ℕ) : WithRstn (FifoIn α) :=
  ⟨(v t).rstn, B.queueIn (M.resettable.state v t) (v t).val⟩

/-- In the whole run the buffer is such a queue. -/
structure Refines (n : ℕ) (v : ℕ → WithRstn ι) : Prop where
  reset : B.held M.reset = []
  moves : ∀ t, (v t).rstn = true → B.Moves n (M.resettable.state v t) (v t).val

namespace Refines

variable {B} {n : ℕ} {v : ℕ → WithRstn ι}

theorem held_eq (h : B.Refines n v) (t : ℕ) :
    B.held (M.resettable.state v t) = fifo.resettable.state (B.queueRun v) t := by
  induction t with
  | zero => exact h.reset
  | succ t ih =>
    cases hr : (v t).rstn with
    | false =>
      have hr' : (B.queueRun v t).rstn = false := hr
      rw [Machine.resettable_state_succ_of_reset hr, Machine.resettable_state_succ_of_reset hr']
      exact h.reset
    | true =>
      have hr' : (B.queueRun v t).rstn = true := hr
      rw [Machine.resettable_state_succ_of_rstn hr, Machine.resettable_state_succ_of_rstn hr',
        (h.moves t hr).held, ih]
      rfl

theorem put_eq (t : ℕ) :
    M.sinceReset v B.put t = fifo.sinceReset (B.queueRun v) (fun _ i => i.put) t := by
  induction t with
  | zero => rfl
  | succ t ih =>
    cases hr : (v t).rstn with
    | false =>
      have hr' : (B.queueRun v t).rstn = false := hr
      rw [Machine.sinceReset_succ_of_reset hr, Machine.sinceReset_succ_of_reset hr']
    | true =>
      have hr' : (B.queueRun v t).rstn = true := hr
      rw [Machine.sinceReset_succ_of_rstn hr, Machine.sinceReset_succ_of_rstn hr', ih]
      rfl

theorem got_eq (h : B.Refines n v) (t : ℕ) :
    M.sinceReset v B.got t = fifo.sinceReset (B.queueRun v) (fun q i => i.got q) t := by
  induction t with
  | zero => rfl
  | succ t ih =>
    cases hr : (v t).rstn with
    | false =>
      have hr' : (B.queueRun v t).rstn = false := hr
      rw [Machine.sinceReset_succ_of_reset hr, Machine.sinceReset_succ_of_reset hr']
    | true =>
      have hr' : (B.queueRun v t).rstn = true := hr
      rw [Machine.sinceReset_succ_of_rstn hr, Machine.sinceReset_succ_of_rstn hr', ih,
        (h.moves t hr).got, h.held_eq t]
      rfl

/-- What has been taken in has been given out or is held. -/
theorem balance (h : B.Refines n v) (t : ℕ) :
    M.sinceReset v B.put t = M.sinceReset v B.got t ++ B.held (M.resettable.state v t) := by
  rw [put_eq, h.got_eq, h.held_eq]
  exact fifo_balance t

theorem length_held_le (h : B.Refines n v) (t : ℕ) :
    (B.held (M.resettable.state v t)).length ≤ n := by
  rw [h.held_eq]
  apply fifo_length_le
  intro m hm
  rw [← h.held_eq]
  exact (h.moves m hm).fits

end Refines

end Buffer

end Sync
