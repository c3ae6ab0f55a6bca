import AxisSystolic.Ibex.DevToMaxil
import Mathlib.Order.Interval.Finset.Nat

/-!
# The read throttle of the bridge

The counter `rd_cooldown` measures the distance to the last granted read: with that
read in cycle `n` it is `POLL_GAP + g - (m - n)` in cycle `m`, where `g` is the
number of grants in between, each of which held it up for a cycle (`Cooling`).  So a
read waits until it has run down, and not longer.
-/

namespace AxisSystolic

open Sync

namespace DevToMaxil

variable {p : MaxilParams} {u : ℕ → MaxilIn p} {k n m : ℕ}

/-- A request is granted in cycle `n`. -/
def GrantAt (u : ℕ → MaxilIn p) (n : ℕ) : Prop :=
  ((devToMaxil p).state u n).canGrant (u n) = true

instance (u : ℕ → MaxilIn p) : DecidablePred (GrantAt u) := fun n =>
  inferInstanceAs (Decidable (((devToMaxil p).state u n).canGrant (u n) = true))

/-- A read request is granted in cycle `n`. -/
def ReadAt (u : ℕ → MaxilIn p) (n : ℕ) : Prop := GrantAt u n ∧ (u n).dataWe = false

/-- The last read granted before cycle `m` was granted in cycle `n`. -/
structure LastRead (u : ℕ → MaxilIn p) (m n : ℕ) : Prop where
  lt : n < m
  read : ReadAt u n
  last : ∀ k, n < k → k < m → ¬ ReadAt u k

/-- The grants after cycle `n` and before cycle `m`. -/
def grantsBetween (u : ℕ → MaxilIn p) (n m : ℕ) : ℕ := ((Finset.Ioo n m).filter (GrantAt u)).card

theorem grantsBetween_lt (hnm : n < m) : grantsBetween u n m < m - n := by
  have hle : grantsBetween u n m ≤ (Finset.Ioo n m).card := Finset.card_filter_le _ _
  rw [Nat.card_Ioo] at hle
  omega

@[simp] theorem grantsBetween_self_succ (u : ℕ → MaxilIn p) (n : ℕ) :
    grantsBetween u n (n + 1) = 0 := by
  have hlt : grantsBetween u n (n + 1) < n + 1 - n := grantsBetween_lt (Nat.lt_succ_self n)
  omega

theorem grantsBetween_succ (hnm : n < m) :
    grantsBetween u n (m + 1) = grantsBetween u n m + if GrantAt u m then 1 else 0 := by
  have hins : Finset.Ioo n (m + 1) = insert m (Finset.Ioo n m) := by
    ext k
    rw [Finset.mem_insert, Finset.mem_Ioo, Finset.mem_Ioo]
    omega
  have hnot : m ∉ (Finset.Ioo n m).filter (GrantAt u) := by simp
  rw [grantsBetween, grantsBetween, hins, Finset.filter_insert]
  split
  · rw [Finset.card_insert_of_notMem hnot]
  · rfl

namespace LastRead

theorem of_read (h : ReadAt u m) : LastRead u (m + 1) m where
  lt := Nat.lt_succ_self m
  read := h
  last k hk hkm := by omega

theorem succ (h : LastRead u m n) (hno : ¬ ReadAt u m) : LastRead u (m + 1) n where
  lt := Nat.lt_succ_of_lt h.lt
  read := h.read
  last k hk hkm := by
    rcases Nat.eq_or_lt_of_le (Nat.le_of_lt_succ hkm) with rfl | hlt
    · exact hno
    · exact h.last k hk hlt

/-- Every read granted before is granted no later. -/
theorem le (h : LastRead u m n) (hk : ReadAt u k) (hkm : k < m) : k ≤ n := by
  by_contra hlt
  exact h.last k (not_le.mp hlt) hkm hk

end LastRead

/-- What `rd_cooldown` says in cycle `m`. -/
inductive Cooling (u : ℕ → MaxilIn p) (m : ℕ) (s : DevToMaxil p) : Prop
  | unread (hno : ∀ k < m, ¬ ReadAt u k) (hcd : s.rdCooldown.toNat = 0)
  | read (n : ℕ) (hlast : LastRead u m n)
      (hcd : s.rdCooldown.toNat = p.pollGap + grantsBetween u n m - (m - n))

namespace Cooling

variable {s : DevToMaxil p}

theorem le (h : Cooling u m s) : s.rdCooldown.toNat ≤ p.pollGap - 1 := by
  cases h with
  | unread _ hcd => exact hcd ▸ Nat.zero_le _
  | read n hlast hcd =>
    have hlt := grantsBetween_lt (u := u) hlast.lt
    omega

theorem step_cooldown (h : Cooling u m ((devToMaxil p).state u m)) :
    ((devToMaxil p).state u (m + 1)).rdCooldown.toNat = if GrantAt u m then
      if (u m).dataWe = true then ((devToMaxil p).state u m).rdCooldown.toNat else p.pollGap - 1
    else ((devToMaxil p).state u m).rdCooldown.toNat - 1 :=
  step_rdCooldown h.le

/-- A granted read starts the counter. -/
theorem step_read (h : Cooling u m ((devToMaxil p).state u m)) (hr : ReadAt u m) :
    Cooling u (m + 1) ((devToMaxil p).state u (m + 1)) := by
  refine .read m (LastRead.of_read hr) ?_
  rw [h.step_cooldown, if_pos hr.1, if_neg (by simp [hr.2]), grantsBetween_self_succ]
  omega

/-- Every other cycle counts it down, unless it grants a write. -/
theorem step_quiet (h : Cooling u m ((devToMaxil p).state u m)) (hr : ¬ ReadAt u m) :
    Cooling u (m + 1) ((devToMaxil p).state u (m + 1)) := by
  have hstep : ((devToMaxil p).state u (m + 1)).rdCooldown.toNat = if GrantAt u m then
      ((devToMaxil p).state u m).rdCooldown.toNat
      else ((devToMaxil p).state u m).rdCooldown.toNat - 1 := by
    rw [h.step_cooldown]
    by_cases hg : GrantAt u m
    · have hw : (u m).dataWe = true := by
        by_contra hw
        exact hr ⟨hg, Bool.not_eq_true _ ▸ hw⟩
      rw [if_pos hg, if_pos hg, if_pos hw]
    · rw [if_neg hg, if_neg hg]
  cases h with
  | unread hno hcd =>
    refine .unread ?_ ?_
    · intro k hk
      rcases Nat.eq_or_lt_of_le (Nat.le_of_lt_succ hk) with rfl | hlt
      · exact hr
      · exact hno k hlt
    · rw [hstep, hcd]
      split <;> rfl
  | read n hlast hcd =>
    have hlt := hlast.lt
    refine .read n (hlast.succ hr) ?_
    rw [hstep, hcd, grantsBetween_succ hlt]
    split <;> omega

end Cooling

theorem cooling_run (u : ℕ → MaxilIn p) (m : ℕ) : Cooling u m ((devToMaxil p).state u m) := by
  induction m with
  | zero => exact .unread (fun k hk => absurd hk (Nat.not_lt_zero k)) rfl
  | succ m ih =>
    by_cases hr : ReadAt u m
    · exact ih.step_read hr
    · exact ih.step_quiet hr

theorem ReadAt.cooldown (h : ReadAt u m) : ((devToMaxil p).state u m).rdCooldown.toNat = 0 := by
  have hg : ((devToMaxil p).state u m).canGrant (u m) = true := h.1
  simp only [canGrant, wantWrite, wantRead, h.2, Bool.and_false, Bool.false_or, Bool.and_eq_true]
    at hg
  exact (rdOk_iff (cooling_run u m).le).mp hg.2.2

end DevToMaxil

open DevToMaxil

variable {p : MaxilParams}

/-- **Granted reads are `POLL_GAP` cycles apart, and a read that the bridge could take
is refused for no longer than that and the grants in between.** -/
theorem reads_throttled (u : ℕ → MaxilIn p) :
    (∀ n m, n < m → ReadAt u n → ReadAt u m → n + p.pollGap ≤ m) ∧
    ∀ m, ((devToMaxil p).state u m).state = .idle → ((devToMaxil p).state u m).reqValid = false →
      wantRead (u m) = true → ¬ GrantAt u m →
      ∃ n, LastRead u m n ∧ m - n < p.pollGap + grantsBetween u n m := by
  refine ⟨?_, ?_⟩
  · intro n m hnm hn hm
    cases cooling_run u m with
    | unread hno _ => exact absurd hn (hno n hnm)
    | read k hlast hcd =>
      have hle := hlast.le hn hnm
      have hlt := hlast.lt
      rw [hm.cooldown] at hcd
      omega
  · intro m hidle hvalid hreq hno
    have hcool := cooling_run u m
    have hcd : ((devToMaxil p).state u m).rdCooldown.toNat ≠ 0 := by
      intro h0
      apply hno
      rw [GrantAt, canGrant_of_idle hidle hvalid, hreq, (rdOk_iff hcool.le).mpr h0]
      exact Bool.or_true _
    cases hcool with
    | unread _ h0 => exact absurd h0 hcd
    | read n hlast heq => exact ⟨n, hlast, by omega⟩

end AxisSystolic
