import Mathlib.Order.Lattice
import Mathlib.Order.Nat
import Mathlib.Data.Nat.Notation

/-!
# Windows of a linear order

An increasing sequence of bases cuts what lies from its first base on into windows: each
goes up to the next base, and the last one has no end.  Every element from the first
base on is in exactly one of them (`contains_unique`, `exists_contains`).
-/

namespace Mem

/-- A sequence of increasing bases. -/
structure Windows (α : Type*) [LinearOrder α] where
  count : ℕ
  base : ℕ → α
  increasing : ∀ s, s + 1 < count → base s < base (s + 1)

namespace Windows

variable {α : Type*} [LinearOrder α] {w : Windows α} {s s' : ℕ} {a : α}

/-- `a` is in window `s`. -/
def Contains (w : Windows α) (s : ℕ) (a : α) : Prop :=
  s < w.count ∧ w.base s ≤ a ∧ (s + 1 < w.count → a < w.base (s + 1))

theorem base_mono (h : s ≤ s') (hs' : s' < w.count) : w.base s ≤ w.base s' := by
  induction s', h using Nat.le_induction with
  | base => exact le_rfl
  | succ k _ ih => exact (ih (Nat.lt_of_succ_lt hs')).trans (w.increasing k hs').le

theorem Contains.base_zero_le (h : w.Contains s a) : w.base 0 ≤ a :=
  (base_mono (Nat.zero_le s) h.1).trans h.2.1

/-- A later window begins where this one has ended. -/
theorem Contains.not_lt (h : w.Contains s a) (h' : w.Contains s' a) : ¬s < s' := by
  intro hlt
  have hend : a < w.base (s + 1) := h.2.2 (Nat.lt_of_le_of_lt hlt h'.1)
  exact absurd ((base_mono hlt h'.1).trans h'.2.1) (not_le.mpr hend)

/-- The windows are disjoint. -/
theorem contains_unique (h : w.Contains s a) (h' : w.Contains s' a) : s = s' :=
  Nat.le_antisymm (Nat.le_of_not_lt (h'.not_lt h)) (Nat.le_of_not_lt (h.not_lt h'))

/-- Below the base of a later window is one of the windows before it. -/
theorem exists_contains_of_lt (h0 : w.base 0 ≤ a) (hs : s + 1 < w.count)
    (ha : a < w.base (s + 1)) : ∃ k, w.Contains k a := by
  induction s with
  | zero => exact ⟨0, Nat.lt_of_succ_lt hs, h0, fun _ => ha⟩
  | succ s ih =>
    rcases lt_or_ge a (w.base (s + 1)) with hlt | hge
    · exact ih (Nat.lt_of_succ_lt hs) hlt
    · exact ⟨s + 1, Nat.lt_of_succ_lt hs, hge, fun _ => ha⟩

/-- The windows leave no gap. -/
theorem exists_contains (hpos : 0 < w.count) (h0 : w.base 0 ≤ a) : ∃ s, w.Contains s a := by
  obtain ⟨n, hn⟩ : ∃ n, w.count = n + 1 := Nat.exists_eq_add_of_le' hpos
  rcases le_or_gt (w.base n) a with hge | hlt
  · exact ⟨n, by omega, hge, fun h => absurd h (by omega)⟩
  · cases n with
    | zero => exact absurd h0 (not_le.mpr hlt)
    | succ s => exact exists_contains_of_lt h0 (by omega) hlt

end Windows

end Mem
