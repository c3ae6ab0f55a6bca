import AxisSystolic.Sync.Machine
import Mathlib.Data.BitVec
import Mathlib.Data.Fintype.Basic

/-!
# The DMA controller (`dma_controller.sv`)

Sixteen configuration registers launch four DMA engines.  Software writes the
addresses and lengths and then bit `0` of `START`; the controller offers a
descriptor on the four channels while that bit is set and clears it in a cycle
in which all four are ready.  A channel's `DONE` is set by its status pulses.

All registers are written in one block, in which a later assignment wins
(`assign`).
-/

namespace AxisSystolic

open Sync

/-- The parameters of `dma_controller`. -/
structure DmaParams where
  addrWidth : ℕ
  axiDataWidth : ℕ
  axisUserWidth : ℕ
  axiLenWidth : ℕ

/-- The widths of the accelerator. -/
abbrev dma32 : DmaParams := ⟨32, 32, 8, 32⟩

inductive Channel where
  | mm2s0 | mm2s1 | mm2s2 | s2mm
deriving DecidableEq

instance : Fintype Channel where
  elems := {.mm2s0, .mm2s1, .mm2s2, .s2mm}
  complete c := by cases c <;> decide

/-! ### Register map -/

/-- `A_START`. -/
def aStart : ℕ := 0x0

namespace Channel

/-- `A_MM2S_0_DONE` and so on. -/
def aDone : Channel → ℕ
  | mm2s0 => 0x1
  | mm2s1 => 0x5
  | mm2s2 => 0x9
  | s2mm => 0xD

def aAddr : Channel → ℕ
  | mm2s0 => 0x2
  | mm2s1 => 0x6
  | mm2s2 => 0xA
  | s2mm => 0xE

def aBytes : Channel → ℕ
  | mm2s0 => 0x3
  | mm2s1 => 0x7
  | mm2s2 => 0xB
  | s2mm => 0xF

/-- The output channel has no `TUSER`. -/
def aTuser : Channel → Option ℕ
  | mm2s0 => some 0x4
  | mm2s1 => some 0x8
  | mm2s2 => some 0xC
  | s2mm => none

theorem aDone_ne_aStart (c : Channel) : c.aDone ≠ aStart := by
  cases c <;> decide

theorem aAddr_inj {c c' : Channel} (h : c.aAddr = c'.aAddr) : c = c' := by
  cases c <;> cases c' <;> first | rfl | cases h

theorem aBytes_inj {c c' : Channel} (h : c.aBytes = c'.aBytes) : c = c' := by
  cases c <;> cases c' <;> first | rfl | cases h

theorem aAddr_ne_aBytes (c c' : Channel) : c.aAddr ≠ c'.aBytes := by
  cases c <;> cases c' <;> decide

end Channel

/-! ### Registers and ports -/

/-- The registers `cfg`, read below `16`. -/
def Cfg (p : DmaParams) : Type := ℕ → BitVec p.axiDataWidth

/-- The inputs of a cycle, but for the read port. -/
structure DmaIn (p : DmaParams) where
  regWrEn : Bool
  regWrAddr : BitVec p.addrWidth
  regWrData : BitVec p.axiDataWidth
  ready : Channel → Bool
  statusValid : Channel → Bool
  statusError : Channel → BitVec 4

namespace Cfg

variable {p : DmaParams}

/-- `rstn` low. -/
def reset (p : DmaParams) : Cfg p := fun _ => 0

/-- `if (b) cfg[a] <= v`. -/
def assign (b : Bool) (a : ℕ) (v : BitVec p.axiDataWidth) (s : Cfg p) : Cfg p := fun a' =>
  if b = true ∧ a' = a then v else s a'

variable (s : Cfg p) (i : DmaIn p)

/-- `reg_rd_data`.  Beyond the last register a read gives `0` here, and `x` in the source. -/
def regRdData (a : ℕ) : BitVec p.axiDataWidth := s a

def start : Bool := (s aStart).getLsbD 0

/-- `mm2s_0_valid` and so on: an input channel waits for the output engine, and
the output channel for the engine of `mm2s_0`. -/
def valid : Channel → Bool
  | .mm2s0 => s.start && i.ready .s2mm
  | .mm2s1 => s.start && i.ready .s2mm
  | .mm2s2 => s.start && i.ready .s2mm
  | .s2mm => s.start && i.ready .mm2s0

def addr (c : Channel) : BitVec p.addrWidth := (s c.aAddr).setWidth p.addrWidth

def len (c : Channel) : BitVec p.axiLenWidth := (s c.aBytes).setWidth p.axiLenWidth

def desc (c : Channel) : BitVec (p.axiLenWidth + p.addrWidth) := s.len c ++ s.addr c

def user (c : Channel) : Option (BitVec p.axisUserWidth) :=
  c.aTuser.map fun a => (s a).setWidth p.axisUserWidth

/-- `mm2s_0_done` and so on: a status pulse without an error. -/
def done (i : DmaIn p) (c : Channel) : Bool := i.statusValid c && i.statusError c == 0

/-- Bit `0` of `START` is written. -/
def startNext (i : DmaIn p) : Bool :=
  i.regWrEn && i.regWrAddr.toNat == aStart && i.regWrData.getLsbD 0

def allReady (i : DmaIn p) : Bool :=
  i.ready .s2mm && i.ready .mm2s0 && i.ready .mm2s1 && i.ready .mm2s2

/-- A clock edge.  A write beyond the registers has no effect. -/
def step : Cfg p :=
  s |> assign (done i .mm2s0) Channel.mm2s0.aDone 1
    |> assign (done i .mm2s1) Channel.mm2s1.aDone 1
    |> assign (done i .mm2s2) Channel.mm2s2.aDone 1
    |> assign (done i .s2mm) Channel.s2mm.aDone 1
    |> assign (startNext i) Channel.mm2s0.aDone 0
    |> assign (startNext i) Channel.mm2s1.aDone 0
    |> assign (startNext i) Channel.mm2s2.aDone 0
    |> assign (startNext i) Channel.s2mm.aDone 0
    |> assign (s.start && allReady i) aStart 0
    |> assign (i.regWrEn && decide (i.regWrAddr.toNat < 16)) i.regWrAddr.toNat i.regWrData

/-- A descriptor is handed to the engine of channel `c`. -/
def taken (c : Channel) : Bool := s.valid i c && i.ready c

/-! ### What a clock edge does to a register -/

section Step

variable {s i}

/-- Software writes register `a`. -/
def writes (i : DmaIn p) (a : ℕ) : Prop := i.regWrEn = true ∧ i.regWrAddr.toNat = a

theorem allReady_iff : allReady i = true ↔ ∀ c, i.ready c = true := by
  refine ⟨?_, ?_⟩
  · intro h c
    simp only [allReady, Bool.and_eq_true] at h
    cases c <;> simp [h]
  · intro h
    simp [allReady, h]

theorem step_of_writes {a : ℕ} (ha : a < 16) (hw : writes i a) : s.step i a = i.regWrData := by
  obtain ⟨hen, rfl⟩ := hw
  simp [step, assign, hen, ha]

theorem step_start_of_not_writes (hw : ¬ writes i aStart) :
    s.step i aStart = if s.start = true ∧ allReady i = true then 0 else s aStart := by
  have hne : ¬ ((i.regWrEn && decide (i.regWrAddr.toNat < 16)) = true
      ∧ aStart = i.regWrAddr.toNat) := by
    rintro ⟨hen, ha⟩
    rw [Bool.and_eq_true] at hen
    exact hw ⟨hen.1, ha.symm⟩
  have hdone : ∀ c : Channel, aStart ≠ c.aDone := fun c h => c.aDone_ne_aStart h.symm
  rw [step, assign, if_neg hne]
  simp only [assign, hdone, and_false, if_false, and_true, Bool.and_eq_true]

theorem step_done_of_not_writes (c : Channel) (hw : ¬ writes i c.aDone) :
    s.step i c.aDone
      = if startNext i = true then 0 else if done i c = true then 1 else s c.aDone := by
  have hne : ¬ ((i.regWrEn && decide (i.regWrAddr.toNat < 16)) = true
      ∧ c.aDone = i.regWrAddr.toNat) := by
    rintro ⟨hen, ha⟩
    rw [Bool.and_eq_true] at hen
    exact hw ⟨hen.1, ha.symm⟩
  rw [step, assign, if_neg hne]
  simp only [assign, c.aDone_ne_aStart, and_false, if_false]
  cases c <;> simp [Channel.aDone]

end Step

end Cfg

/-- The clocked machine of `dma_controller`. -/
def dmaController (p : DmaParams) : Machine (Cfg p) (DmaIn p) where
  reset := Cfg.reset p
  step := Cfg.step

end AxisSystolic
