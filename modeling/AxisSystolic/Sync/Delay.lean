import AxisSystolic.Sync.Machine

/-!
# Delay lines

A chain of registers shifts its input along, so its `n`-th register holds what
went in `n + 1` shifts ago.  `tap i r n` is the wire in front of register `n`:
the input itself for `n = 0`, else the register before.  On a history `h` of
the values shifted in, newest first, the chain is `nth idle h`, where `idle` is
what the registers hold after reset.
-/

namespace Sync

variable {α : Type*}

/-- The wires of a chain of registers `r` with input `i`. -/
def tap (i : α) (r : ℕ → α) : ℕ → α
  | 0 => i
  | n + 1 => r n

@[simp] theorem tap_zero (i : α) (r : ℕ → α) : tap i r 0 = i := rfl
@[simp] theorem tap_succ (i : α) (r : ℕ → α) (n : ℕ) : tap i r (n + 1) = r n := rfl

/-- What went in `n` shifts before the newest, `idle` before the first. -/
def nth (idle : α) (h : List α) (n : ℕ) : α := h.getD n idle

@[simp] theorem nth_nil (idle : α) (n : ℕ) : nth idle [] n = idle := rfl
@[simp] theorem nth_zero (idle b : α) (h : List α) : nth idle (b :: h) 0 = b := rfl
@[simp] theorem nth_succ (idle b : α) (h : List α) (n : ℕ) :
    nth idle (b :: h) (n + 1) = nth idle h n := rfl

theorem nth_of_lt {idle : α} {h : List α} {n : ℕ} (hn : n < h.length) :
    nth idle h n = h[n] := by
  simp [nth, List.getD_eq_getElem?_getD, hn]

theorem nth_of_le {idle : α} {h : List α} {n : ℕ} (hn : h.length ≤ n) : nth idle h n = idle := by
  simp [nth, List.getD_eq_getElem?_getD, hn]

/-- What the chain held `n` shifts ago, with its newest entry in front. -/
theorem drop_eq_nth_cons (idle : α) {h : List α} {n : ℕ} (hn : n < h.length) :
    h.drop n = nth idle h n :: h.drop (n + 1) := by
  rw [nth_of_lt hn]
  exact List.drop_eq_getElem_cons hn

end Sync
