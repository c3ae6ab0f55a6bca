import AxisSystolic.Sa.Datapath
import Mathlib.Data.Fin.Rev

/-!
# The operands of an element

The cycles with `en_mac` high are numbered from the reset on (`MoveAt`).  In move
`n` the element `(r, c)` is fed the operands of move `n - (r + c)`, and in front of
its accumulator stands the product of move `n - (LM + r + c)`, beside that move's
`s_valid`.  A stalled cycle changes none of the registers on the way.
-/

namespace AxisSystolic

open Sync

variable {p : SaParams} {u : ℕ → SaIn p} {n m t t' : ℕ}

/-- Cycle `t` is the one with `en_mac` high that has `n` of them before it. -/
def MoveAt (p : SaParams) (u : ℕ → SaIn p) (n t : ℕ) : Prop :=
  ((axisSa p).state u t).enMac (u t) = true ∧ (history p u t).length = n

namespace MoveAt

theorem moved (h : MoveAt p u n t) :
    AxisSa.moved ((axisSa p).state u t) (u t) = some (u t).toBeat :=
  AxisSa.moved_of_enMac h.1

theorem history_succ (h : MoveAt p u n t) :
    history p u (t + 1) = (u t).toBeat :: history p u t := by
  rw [history, Machine.past_succ, h.moved]
  rfl

/-- A move has one number, and a number one move. -/
theorem unique (h : MoveAt p u n t) (h' : MoveAt p u n t') : t = t' := by
  have hlt : ∀ {a b}, MoveAt p u n a → MoveAt p u n b → ¬ a < b := by
    intro a b ha hb hab
    have hlen : (history p u a).length < (history p u b).length :=
      Machine.past_length_lt hab ha.moved
    rw [ha.2, hb.2] at hlen
    exact lt_irrefl n hlen
  exact Nat.le_antisymm (not_lt.mp (hlt h' h)) (not_lt.mp (hlt h h'))

/-- The move `k` before this one. -/
theorem exists_earlier (h : MoveAt p u n t) {k : ℕ} (hk : k ≤ n) : ∃ t', MoveAt p u (n - k) t' := by
  have hlen : (history p u (t + 1)).length = n + 1 := by
    rw [h.history_succ, List.length_cons, h.2]
  have hlt : k < (history p u (t + 1)).length := by omega
  obtain ⟨t', _, hsome, ht'⟩ := Machine.exists_of_lt_past hlt
  refine ⟨t', ?_, ?_⟩
  · by_contra hen
    rw [AxisSa.moved_of_stall (Bool.not_eq_true _ ▸ hen)] at hsome
    cases hsome
  · rw [history] at hlen ⊢
    omega

/-- What was shifted in `k` moves before this one. -/
theorem entry_eq (h : MoveAt p u n t) {k : ℕ} (h' : MoveAt p u m t') (hk : m + k = n) :
    entry ((u t).toBeat :: history p u t) k = (u t').toBeat := by
  have hlt : t' < t + 1 := by
    by_contra hge
    have hlen : (history p u t).length < (history p u t').length :=
      Machine.past_length_lt (by omega) h.moved
    rw [h.2, h'.2] at hlen
    omega
  have hlen : (history p u (t + 1)).length = n + 1 := by
    rw [h.history_succ, List.length_cons, h.2]
  have hget : (history p u (t + 1))[k]? = some (u t').toBeat := by
    refine Machine.past_getElem? hlt h'.moved ?_
    have hm : (history p u t').length = m := h'.2
    rw [history] at hm hlen
    omega
  rw [← h.history_succ, entry, nth, List.getD_eq_getElem?_getD, hget, Option.getD_some]

/-- Nothing was shifted in before the first move. -/
theorem entry_idle (h : MoveAt p u n t) {k : ℕ} (hk : n < k) :
    entry ((u t).toBeat :: history p u t) k = idleBeat p := by
  refine nth_of_le ?_
  rw [List.length_cons, h.2]
  exact hk

end MoveAt

@[simp] theorem Beat.xAt_val (b : Beat p) (r : Fin p.R) : b.xAt r = b.sx r := lane_val b.sx r

@[simp] theorem Beat.kAt_val (b : Beat p) (c : Fin p.C) : b.kAt c = b.sk c.rev := by
  have hrev : p.C - 1 - (c : ℕ) = (c.rev : ℕ) := by
    rw [Fin.val_rev]
    omega
  rw [Beat.kAt, hrev, lane_val]

/-- The registers on the way of the operands and of the control bits are the same. -/
structure OperandsHeld (s s' : AxisSa p) : Prop where
  triX : s'.triX = s.triX
  triK : s'.triK = s.triK
  valid : s'.valid = s.valid
  vlast : s'.vlast = s.vlast
  xo : ∀ r c, (s'.pe r c).xo = (s.pe r c).xo
  ko : ∀ r c, (s'.pe r c).ko = (s.pe r c).ko
  mulResult : ∀ r c, (s'.pe r c).mac.mulResult = (s.pe r c).mac.mulResult
  mulDelay : ∀ r c, (s'.pe r c).mac.mulDelay = (s.pe r c).mac.mulDelay

theorem OperandsHeld.of_stall {s : AxisSa p} {i : SaIn p} (hen : s.enMac i = false) :
    OperandsHeld s (s.step i) where
  triX := by
    funext r c
    simp [AxisSa.step, triStep, hen]
  triK := by
    funext r c
    simp [AxisSa.step, triStep, hen]
  valid := by
    funext n
    simp [AxisSa.step, nDelay, hen]
  vlast := by
    funext n
    simp [AxisSa.step, nDelay, hen]
  xo r c := by simp [AxisSa.step, Pe.step, hen]
  ko r c := by simp [AxisSa.step, Pe.step, hen]
  mulResult r c := by simp [AxisSa.step, Pe.step, Mac.step, hen]
  mulDelay r c := by
    funext n
    simp [AxisSa.step, Pe.step, Mac.step, nDelay, hen]

/-- What the element `(r, c)` is fed in move `n`. -/
structure Fed (u : ℕ → SaIn p) (n : ℕ) (s : AxisSa p) (i : SaIn p) (r : Fin p.R) (c : Fin p.C) :
    Prop where
  operands : (r : ℕ) + c ≤ n → ∀ t, MoveAt p u (n - (r + c)) t →
    s.xi i r c = (u t).sx r ∧ s.ki i r c = (u t).sk c.rev
  operands_idle : n < (r : ℕ) + c → s.xi i r c = 0 ∧ s.ki i r c = 0
  product : p.LM + (r + c) ≤ n → ∀ t, MoveAt p u (n - (p.LM + (r + c))) t →
    s.validTap i (p.LM + (r + c)) = (u t).sValid ∧
      ((s.pe r c).mac.m p.LM).toInt = ((u t).sx r).toInt * ((u t).sk c.rev).toInt
  product_idle : n < p.LM + (r + c) →
    s.validTap i (p.LM + (r + c)) = false ∧ (s.pe r c).mac.m p.LM = 0

theorem MoveAt.fed (h : MoveAt p u n t) (r : Fin p.R) (c : Fin p.C) :
    Fed u n ((axisSa p).state u t) (u t) r c := by
  have ha := aligned_run u t
  refine ⟨?_, ?_, ?_, ?_⟩
  · intro hle t' h'
    rw [ha.xi, ha.ki, h.entry_eq h' (Nat.sub_add_cancel hle), Beat.xAt_val, Beat.kAt_val]
    exact ⟨rfl, rfl⟩
  · intro hlt
    rw [ha.xi, ha.ki, h.entry_idle hlt, idleBeat_xAt, idleBeat_kAt]
    exact ⟨rfl, rfl⟩
  · intro hle t' h'
    rw [ha.validTap, ha.mac_m (i := u t), h.entry_eq h' (Nat.sub_add_cancel hle), Beat.prodAt,
      Mac.toInt_product, Beat.xAt_val, Beat.kAt_val]
    exact ⟨rfl, rfl⟩
  · intro hlt
    rw [ha.validTap, ha.mac_m (i := u t), h.entry_idle hlt, idleBeat_prodAt]
    exact ⟨rfl, rfl⟩

/-- **Every element is fed the operands of one beat, and its accumulator the product
of the beat whose `s_valid` comes with it.** -/
theorem operands_aligned (u : ℕ → SaIn p) :
    (∀ n t, MoveAt p u n t → (∀ t', MoveAt p u n t' → t' = t) ∧
      (∀ m ≤ n, ∃ t', MoveAt p u m t') ∧
      ∀ r c, Fed u n ((axisSa p).state u t) (u t) r c) ∧
    ∀ t, ((axisSa p).state u t).enMac (u t) = false →
      OperandsHeld ((axisSa p).state u t) ((axisSa p).state u (t + 1)) := by
  refine ⟨?_, ?_⟩
  · intro n t h
    refine ⟨fun t' h' => h'.unique h, ?_, fun r c => h.fed r c⟩
    intro m hm
    have hearlier := h.exists_earlier (Nat.sub_le n m)
    rwa [Nat.sub_sub_self hm] at hearlier
  · intro t hen
    exact OperandsHeld.of_stall hen

/-- One row and two columns. -/
def twoColumns : SaParams :=
  ⟨1, 2, 4, 4, 8, 1, 1, Nat.one_pos, Nat.two_pos, Nat.one_pos, Nat.one_pos⟩

/-- Packets of two beats, stalled while the sink holds up the first. -/
def heldFeed : ℕ → SaIn twoColumns := fun t =>
  ⟨⟨true, t % 2 == 1, fun _ => BitVec.ofNat 4 (t + 1), fun c => BitVec.ofNat 4 (2 * t + c)⟩,
    decide (6 ≤ t)⟩

/-- The sixth move is two cycles late. -/
theorem heldFeed_aligned : ((axisSa twoColumns).state heldFeed 6).enMac (heldFeed 6) = false ∧
    ((axisSa twoColumns).state heldFeed 8).xi (heldFeed 8) 0 1 = 8 ∧
    ((axisSa twoColumns).state heldFeed 8).ki (heldFeed 8) 0 1 = 14 := by
  have hmove : MoveAt twoColumns heldFeed 6 8 := ⟨by decide, by decide⟩
  have hfed := ((operands_aligned heldFeed).1 6 8 hmove).2.2 (0 : Fin 1) (1 : Fin 2)
  exact ⟨by decide, hfed.operands (by decide) 7 ⟨by decide, by decide⟩⟩

end AxisSystolic
