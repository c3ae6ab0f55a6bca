import AxisSystolic.Dma.Written

/-!
# Many clients

Any number of clients share the controller.  In each cycle the bus carries the
register access of at most one of them, so their accesses interleave in any
order, and the engines do what they like.  The driver has no lock.

A call of `SA_IOC_RUN` relies on what it has written (`Run.written`) until it
writes `START`.  That is still in the registers unless another client has
written something else there (`Sys.Intact.step`).
-/

namespace AxisSystolic

open Sync

/-! ### The system -/

/-- The controller and the call of each client. -/
structure Sys (ι : Type*) where
  cfg : Cfg dma32
  call : ι → Call

/-- What happens in a cycle: the calls that are made, the client whose access
the bus carries, and the signals of the engines. -/
structure SysIn (ι : Type*) where
  issue : ι → Option Ioctl
  bus : Option ι
  ready : Channel → Bool
  statusValid : Channel → Bool
  statusError : Channel → BitVec 4

namespace Sys

variable {ι : Type*}

def reset (ι : Type*) : Sys ι where
  cfg := Cfg.reset dma32
  call := fun _ => .idle

variable (sa : SaDev) (s : Sys ι) (i : SysIn ι)

/-- The register access of the cycle. -/
def access : Option Access := i.bus.bind fun k => (s.call k).access

def rdData : BitVec 32 :=
  match s.access i with
  | some (.read reg) => s.cfg.regRdData reg
  | _ => 0

/-- The ports of the controller. -/
def dmaIn : DmaIn dma32 :=
  match s.access i with
  | some (.write reg value) =>
    ⟨true, BitVec.ofNat 32 reg, value, i.ready, i.statusValid, i.statusError⟩
  | _ => ⟨false, 0, 0, i.ready, i.statusValid, i.statusError⟩

variable [DecidableEq ι]

/-- Client `k` after the cycle, and what its call returns in it. -/
def callNext (k : ι) : Call × Option (Except Errno Reply) :=
  match s.call k with
  | .idle =>
    match i.issue k with
    | some cmd => Call.enter sa cmd
    | none => (.idle, none)
  | call => if i.bus = some k then call.next (s.rdData i) else (call, none)

def step : Sys ι where
  cfg := s.cfg.step (s.dmaIn i)
  call k := (callNext sa s i k).1

end Sys

/-- The system of the clients `ι`. -/
def clients (ι : Type*) [DecidableEq ι] (sa : SaDev) : Machine (Sys ι) (SysIn ι) where
  reset := Sys.reset ι
  step s i := s.step sa i

/-! ### One access -/

namespace Sys

variable {ι : Type*} {s : Sys ι} {i : SysIn ι} {a reg : ℕ} {value : BitVec 32}

/-- A write is seen in the registers. -/
theorem step_of_write (h : s.access i = some (.write reg value)) (hreg : reg < 16) :
    s.cfg.step (s.dmaIn i) reg = value := by
  have hin : s.dmaIn i
      = ⟨true, BitVec.ofNat 32 reg, value, i.ready, i.statusValid, i.statusError⟩ := by
    rw [dmaIn, h]
  rw [hin]
  apply Cfg.step_of_writes hreg
  refine ⟨rfl, ?_⟩
  show (BitVec.ofNat 32 reg).toNat = reg
  rw [BitVec.toNat_ofNat]
  omega

/-- A register of software that is not written stays. -/
theorem step_of_not_write (ha : Cfg.SoftwareOnly a)
    (h : ∀ reg value, s.access i = some (.write reg value) → reg < 16 ∧ reg ≠ a) :
    s.cfg.step (s.dmaIn i) a = s.cfg a := by
  apply Cfg.step_of_softwareOnly ha
  rintro ⟨hen, haddr⟩
  cases hacc : s.access i with
  | none => simp [dmaIn, hacc] at hen
  | some acc =>
    cases acc with
    | read reg => simp [dmaIn, hacc] at hen
    | write reg value =>
      obtain ⟨hlt, hne⟩ := h reg value hacc
      simp only [dmaIn, hacc, BitVec.toNat_ofNat] at haddr
      omega

end Sys

/-! ### What the clients rely on -/

/-- No client uses `SA_IOC_WRITE_REG`. -/
def NoWriteReg {ι : Type*} (i : SysIn ι) : Prop :=
  ∀ k cmd, i.issue k = some cmd → cmd.isWriteReg = false

/-- A run in which all clients call `SA_IOC_RUN` in cycle `0`, and nothing after it. -/
theorem noWriteReg_of_runs {ι : Type*} {u : ℕ → SysIn ι} {cfg : ι → RunConfig}
    (hfirst : ∀ k, (u 0).issue k = some (.run (cfg k)))
    (hlater : ∀ n k, (u (n + 1)).issue k = none) (n : ℕ) : NoWriteReg (u n) := by
  intro k cmd h
  cases n with
  | zero =>
    rw [hfirst] at h
    cases h
    rfl
  | succ n =>
    rw [hlater] at h
    cases h

namespace Sys

variable {ι : Type*} {sa : SaDev} {s : Sys ι} {i : SysIn ι}

/-- All calls have come from their commands. -/
def Orderly (sa : SaDev) (s : Sys ι) : Prop := ∀ k, (s.call k).Orderly sa

/-- What the calls have written to the registers of `keep` is still there. -/
def Intact (sa : SaDev) (keep : ℕ → Prop) (s : Sys ι) : Prop :=
  ∀ k, ∀ w ∈ (s.call k).written sa, keep w.1 → s.cfg w.1 = w.2

/-- A write to a register of `keep` agrees with what the others have written
there. -/
def Agreed (sa : SaDev) (keep : ℕ → Prop) (s : Sys ι) (i : SysIn ι) : Prop :=
  ∀ j reg value, i.bus = some j → (s.call j).access = some (.write reg value) → keep reg →
    ∀ k, k ≠ j → ∀ w ∈ (s.call k).written sa, w.1 = reg → w.2 = value

theorem intact_reset (sa : SaDev) (keep : ℕ → Prop) : (reset ι).Intact sa keep := by
  intro k w hw
  cases hw

theorem exists_of_access {acc : Access} (h : s.access i = some acc) :
    ∃ j, i.bus = some j ∧ (s.call j).access = some acc := by
  unfold access at h
  cases hb : i.bus with
  | none =>
    rw [hb] at h
    cases h
  | some j =>
    rw [hb] at h
    exact ⟨j, rfl, h⟩

/-- A write goes to `START` or to the registers of software. -/
theorem Orderly.reg_lt {reg : ℕ} {value : BitVec 32} (h : s.Orderly sa)
    (hacc : s.access i = some (.write reg value)) : reg < 16 := by
  obtain ⟨j, _, hj⟩ := exists_of_access hacc
  rcases (h j).write_cases hj with rfl | ⟨c, ⟨rfl, _⟩ | ⟨rfl, _⟩⟩
  · decide
  · cases c <;> decide
  · cases c <;> decide

/-- A register of software that no client writes stays. -/
theorem Orderly.step_of_not_write {a : ℕ} (h : s.Orderly sa) (ha : Cfg.SoftwareOnly a)
    (hno : ¬ ∃ value, s.access i = some (.write a value)) :
    s.cfg.step (s.dmaIn i) a = s.cfg a := by
  apply Sys.step_of_not_write ha
  intro reg value hacc
  refine ⟨h.reg_lt hacc, ?_⟩
  rintro rfl
  exact hno ⟨value, hacc⟩

variable [DecidableEq ι]

theorem callNext_of_idle {k : ι} (h : s.call k = .idle) : s.callNext sa i k
    = ((i.issue k).map (Call.enter sa)).getD (.idle, none) := by
  rw [callNext, h]
  cases i.issue k <;> rfl

theorem callNext_of_bus {k : ι} (h : s.call k ≠ .idle) (hb : i.bus = some k) :
    s.callNext sa i k = (s.call k).next (s.rdData i) := by
  rw [callNext]
  split
  · rename_i hidle
    exact absurd hidle h
  · rw [if_pos hb]

theorem callNext_of_not_bus {k : ι} (h : s.call k ≠ .idle) (hb : i.bus ≠ some k) :
    s.callNext sa i k = (s.call k, none) := by
  rw [callNext]
  split
  · rename_i hidle
    exact absurd hidle h
  · rw [if_neg hb]

theorem Orderly.step (h : s.Orderly sa) (hi : NoWriteReg i) : (s.step sa i).Orderly sa := by
  intro k
  show (s.callNext sa i k).1.Orderly sa
  by_cases hidle : s.call k = .idle
  · rw [callNext_of_idle hidle]
    cases hc : i.issue k with
    | none => exact .idle
    | some cmd => exact Call.Orderly.enter (hi k cmd hc)
  · by_cases hb : i.bus = some k
    · rw [callNext_of_bus hidle hb]
      exact (h k).next _
    · rw [callNext_of_not_bus hidle hb]
      exact h k

/-- What has been written in the cycle or before it. -/
theorem mem_written_step (h : s.Orderly sa) {k : ι} {w : ℕ × BitVec 32}
    (hw : w ∈ ((s.step sa i).call k).written sa) :
    w ∈ (s.call k).written sa ∨ i.bus = some k ∧ s.access i = some (.write w.1 w.2) := by
  have hw' : w ∈ (s.callNext sa i k).1.written sa := hw
  by_cases hidle : s.call k = .idle
  · rw [callNext_of_idle hidle] at hw'
    cases hc : i.issue k with
    | none =>
      rw [hc] at hw'
      cases hw'
    | some cmd =>
      rw [hc] at hw'
      have hnil : w ∈ (Call.enter sa cmd).1.written sa := hw'
      rw [Call.written_enter] at hnil
      cases hnil
  · by_cases hb : i.bus = some k
    · rw [callNext_of_bus hidle hb] at hw'
      rcases (h k).mem_written_next hw' with hold | hnew
      · exact Or.inl hold
      · refine Or.inr ⟨hb, ?_⟩
        rw [access, hb]
        exact hnew
    · rw [callNext_of_not_bus hidle hb] at hw'
      exact Or.inl hw'

theorem Intact.step {keep : ℕ → Prop} (h : s.Intact sa keep) (ho : s.Orderly sa)
    (hkeep : ∀ a, keep a → Cfg.SoftwareOnly a) (hag : s.Agreed sa keep i) :
    (s.step sa i).Intact sa keep := by
  intro k w hw hk
  show s.cfg.step (s.dmaIn i) w.1 = w.2
  rcases mem_written_step ho hw with hold | ⟨_, hnew⟩
  · by_cases hwr : ∃ value, s.access i = some (.write w.1 value)
    · obtain ⟨value, hacc⟩ := hwr
      obtain ⟨j, hb, hj⟩ := exists_of_access hacc
      rw [step_of_write hacc (ho.reg_lt hacc)]
      by_cases hkj : k = j
      · subst hkj
        exact absurd rfl ((ho k).ne_of_mem_written hj hold)
      · exact (hag j w.1 value hb hj hk k hkj w hold rfl).symm
    · rw [ho.step_of_not_write (hkeep _ hk) hwr]
      exact h k w hold hk
  · exact step_of_write hnew (ho.reg_lt hnew)

end Sys

section Runs

variable {ι : Type*} [DecidableEq ι] {sa : SaDev} {u : ℕ → SysIn ι}

theorem orderly_run (hu : ∀ n, NoWriteReg (u n)) (t : ℕ) :
    ((clients ι sa).state u t).Orderly sa := by
  induction t with
  | zero => exact fun _ => .idle
  | succ t ih => exact ih.step (hu t)

end Runs

end AxisSystolic
