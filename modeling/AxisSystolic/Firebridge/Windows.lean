import AxisSystolic.Mem.Windows
import Mathlib.Data.BitVec

/-!
# The slave windows (`get_s_index` of `fb_axi_vip.sv`)

A register access of the firmware goes to the slave whose window has its address.
`getSIndex` looks at the last window first and then at the others in order, and leaves
its loop at the first hit.  It is compared with the windows that the bases cut
(`SlaveMap.windows`).
-/

namespace AxisSystolic

open Mem

/-- `S_COUNT` and `S_AXI_BASE_ADDR`. -/
structure SlaveMap where
  sCount : ℕ
  sCount_pos : 0 < sCount
  base : ℕ → BitVec 32
  increasing : ∀ s, s + 1 < sCount → base s < base (s + 1)

namespace SlaveMap

variable (m : SlaveMap) {a : BitVec 32} {s : ℕ}

/-- The loop of `get_s_index` from `s` on, with `todo` windows to go. -/
def sIndexLoop (a : BitVec 32) : ℕ → ℕ → ℤ
  | 0, _ => -1
  | todo + 1, s =>
    if m.base s ≤ a && a < m.base (s + 1) then s else sIndexLoop a todo (s + 1)

/-- `get_s_index`.  The bases are unsigned, and so are the comparisons, although the
argument is an `int`. -/
def getSIndex (a : BitVec 32) : ℤ :=
  if m.base (m.sCount - 1) ≤ a then ((m.sCount - 1 : ℕ) : ℤ) else m.sIndexLoop a (m.sCount - 1) 0

/-- The address is in window `s`. -/
def InWindow (s : ℕ) (a : BitVec 32) : Prop :=
  s < m.sCount ∧ m.base s ≤ a ∧ (s + 1 < m.sCount → a < m.base (s + 1))

/-- The windows that the bases cut. -/
def windows : Windows ℕ where
  count := m.sCount
  base s := (m.base s).toNat
  increasing := m.increasing

theorem windows_contains : m.windows.Contains s a.toNat ↔ m.InWindow s a := Iff.rfl

/-- No address is in two windows. -/
theorem inWindow_unique {s' : ℕ} (h : m.InWindow s a) (h' : m.InWindow s' a) : s = s' :=
  Windows.contains_unique (m.windows_contains.mpr h) (m.windows_contains.mpr h')

/-- Every address from the first base on is in one. -/
theorem exists_inWindow : (∃ s, m.InWindow s a) ↔ m.base 0 ≤ a :=
  ⟨fun ⟨_, hin⟩ => (m.windows_contains.mpr hin).base_zero_le,
    fun h0 => Windows.exists_contains (w := m.windows) m.sCount_pos h0⟩

/-- The loop stops at the first window that has the address. -/
theorem sIndexLoop_cases {todo : ℕ} (hs : s + todo < m.sCount) :
    (∃ k, m.InWindow k a ∧ m.sIndexLoop a todo s = k) ∨
      (∀ k, s ≤ k → k < s + todo → ¬m.InWindow k a) ∧ m.sIndexLoop a todo s = -1 := by
  induction todo generalizing s with
  | zero => exact .inr ⟨fun k hk hlt => absurd hlt (Nat.not_lt.mpr hk), rfl⟩
  | succ todo ih =>
    rw [sIndexLoop]
    split
    · next hhit =>
      rw [Bool.and_eq_true, decide_eq_true_eq, decide_eq_true_eq] at hhit
      exact .inl ⟨s, ⟨by omega, hhit.1, fun _ => hhit.2⟩, rfl⟩
    · next hmiss =>
      rcases ih (s := s + 1) (by omega) with hfound | ⟨hnone, hret⟩
      · exact .inl hfound
      · refine .inr ⟨?_, hret⟩
        intro k hk hlt hin
        rcases Nat.eq_or_lt_of_le hk with rfl | hsk
        · refine hmiss ?_
          rw [Bool.and_eq_true, decide_eq_true_eq, decide_eq_true_eq]
          exact ⟨hin.2.1, hin.2.2 (by omega)⟩
        · exact hnone k hsk (by omega) hin

theorem getSIndex_cases (a : BitVec 32) :
    (∃ s, m.InWindow s a ∧ m.getSIndex a = s) ∨
      (∀ s, ¬m.InWindow s a) ∧ m.getSIndex a = -1 := by
  have hpos := m.sCount_pos
  rw [getSIndex]
  split
  · next hlast =>
    have hlt : m.sCount - 1 < m.sCount := by omega
    exact .inl ⟨m.sCount - 1, ⟨hlt, hlast, fun h => absurd h (by omega)⟩, rfl⟩
  · next hlast =>
    have hloop : 0 + (m.sCount - 1) < m.sCount := by omega
    rcases m.sIndexLoop_cases hloop with hfound | ⟨hnone, hret⟩
    · exact .inl hfound
    · refine .inr ⟨?_, hret⟩
      intro k hin
      have hk := hin.1
      rcases Nat.lt_or_ge k (m.sCount - 1) with hlt | hge
      · exact hnone k (Nat.zero_le k) (by omega) hin
      · obtain rfl : k = m.sCount - 1 := by omega
        exact hlast hin.2.1

end SlaveMap

/-- **`get_s_index` finds the window of an address.** -/
theorem getSIndex_decodes (m : SlaveMap) (a : BitVec 32) :
    (∀ s : ℕ, m.getSIndex a = s ↔
      s < m.sCount ∧ m.base s ≤ a ∧ (s + 1 < m.sCount → a < m.base (s + 1))) ∧
    (m.getSIndex a = -1 ↔ a < m.base 0) ∧
    (∀ s s', m.InWindow s a → m.InWindow s' a → s = s') ∧
    ((∃ s, m.InWindow s a) ↔ m.base 0 ≤ a) := by
  refine ⟨?_, ?_, fun s s' => m.inWindow_unique, m.exists_inWindow⟩
  · intro s
    show m.getSIndex a = s ↔ m.InWindow s a
    rcases m.getSIndex_cases a with ⟨k, hin, hret⟩ | ⟨hnone, hret⟩
    · rw [hret, Nat.cast_inj]
      exact ⟨fun h => h ▸ hin, m.inWindow_unique hin⟩
    · rw [hret]
      exact ⟨fun h => by omega, fun h => absurd h (hnone s)⟩
  · rw [← BitVec.not_le, ← m.exists_inWindow]
    rcases m.getSIndex_cases a with ⟨k, hin, hret⟩ | ⟨hnone, hret⟩
    · exact ⟨fun h => by omega, fun h => absurd ⟨k, hin⟩ h⟩
    · exact ⟨fun _ => not_exists.mpr hnone, fun _ => hret⟩

/-- Two windows in the upper half of the address space. -/
def twoWindows : SlaveMap where
  sCount := 2
  sCount_pos := by decide
  base s := if s = 0 then 0xA0000000 else 0xA1000000
  increasing s hs := by
    obtain rfl : s = 0 := by omega
    decide

example : twoWindows.getSIndex 0xA0000FFF = 0 ∧ twoWindows.getSIndex 0xFFFFFFFF = 1 ∧
    twoWindows.getSIndex 0x9FFFFFFF = -1 := by decide

end AxisSystolic
