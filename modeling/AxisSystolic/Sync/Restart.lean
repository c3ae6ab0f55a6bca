import AxisSystolic.Sync.Delay
import Mathlib.Algebra.BigOperators.Intervals

/-!
# Sums since a restart

An accumulator adds up the entries of a history that count, and starts afresh with
an entry that restarts it.  `runningSum counts restarts f h` is what it holds after
the history `h`, newest first, where `f` may look at the entries below the one it
adds.  It is the sum over the entries that count and have no restart above them
(`runningSum_eq`).
-/

namespace Sync

variable {β M : Type*}

section Sum

variable [AddCommMonoid M]

/-- What the accumulator holds. -/
def runningSum (counts restarts : β → Bool) (f : List β → M) : List β → M
  | [] => 0
  | b :: h =>
    if counts b then f (b :: h) + (if restarts b then 0 else runningSum counts restarts f h)
    else runningSum counts restarts f h

variable {counts restarts : β → Bool} {f : List β → M} {idle b : β} {h : List β} {n : ℕ}

theorem runningSum_cons : runningSum counts restarts f (b :: h)
    = if counts b then f (b :: h) + (if restarts b then 0 else runningSum counts restarts f h)
      else runningSum counts restarts f h := rfl

/-- Entry `n` counts, and nothing newer restarts the sum. -/
def Summed (counts restarts : β → Bool) (idle : β) (h : List β) (n : ℕ) : Prop :=
  counts (nth idle h n) = true ∧
    ∀ k < n, ¬ (counts (nth idle h k) = true ∧ restarts (nth idle h k) = true)

instance : DecidablePred (Summed counts restarts idle h) := fun n =>
  inferInstanceAs (Decidable (counts (nth idle h n) = true ∧
    ∀ k < n, ¬ (counts (nth idle h k) = true ∧ restarts (nth idle h k) = true)))

theorem summed_zero : Summed counts restarts idle (b :: h) 0 ↔ counts b = true := by
  refine ⟨And.left, ?_⟩
  intro hc
  exact ⟨hc, fun k hk => absurd hk (Nat.not_lt_zero k)⟩

theorem summed_succ : Summed counts restarts idle (b :: h) (n + 1)
    ↔ ¬ (counts b = true ∧ restarts b = true) ∧ Summed counts restarts idle h n := by
  refine ⟨?_, ?_⟩
  · rintro ⟨hc, hno⟩
    exact ⟨hno 0 (Nat.succ_pos n), hc, fun k hk => hno (k + 1) (Nat.succ_lt_succ hk)⟩
  · rintro ⟨hb, hc, hno⟩
    refine ⟨hc, ?_⟩
    intro k hk
    cases k with
    | zero => exact hb
    | succ k => exact hno k (Nat.lt_of_succ_lt_succ hk)

/-- The entries that are summed. -/
def summed (counts restarts : β → Bool) (idle : β) (h : List β) : Finset ℕ :=
  (Finset.range h.length).filter (Summed counts restarts idle h)

/-- **The accumulator holds the sum from the newest restart on.** -/
theorem runningSum_eq (idle : β) (h : List β) : runningSum counts restarts f h
    = ∑ n ∈ summed counts restarts idle h, f (h.drop n) := by
  induction h with
  | nil => rfl
  | cons b h ih =>
    have htail : ∀ n, Summed counts restarts idle (b :: h) (n + 1)
        ↔ ¬ (counts b = true ∧ restarts b = true) ∧ Summed counts restarts idle h n :=
      fun n => summed_succ
    rw [summed, Finset.sum_filter] at ih ⊢
    rw [List.length_cons, Finset.sum_range_succ', runningSum_cons]
    simp only [summed_zero, htail, List.drop_succ_cons, List.drop_zero]
    by_cases hc : counts b = true
    · by_cases hr : restarts b = true
      · simp [hc, hr]
      · rw [if_pos hc, if_neg hr, ih, add_comm]
        simp [hc, hr]
    · rw [if_neg hc, ih]
      simp [hc]

end Sum

end Sync
