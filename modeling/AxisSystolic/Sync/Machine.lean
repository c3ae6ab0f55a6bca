import Mathlib.Data.List.Basic
import Mathlib.Data.Nat.Find
import Mathlib.Data.Nat.Notation
import Mathlib.Tactic.Use

/-!
# Clocked machines and their runs

A clocked machine is a set of registers, their values after reset, and the
values one clock edge gives them.  A run is driven by an input stream
`u : ℕ → ι`, one input for each cycle since reset, so "in every reachable
state" is `∀ u t, … (M.state u t)`.

Two things are recorded along a run.  `M.events e u t` is the list of what `e`
sees in the first `t` cycles, oldest first (the beats accepted on a stream, the
handshakes of a channel).  `M.past e u t` is the same list newest first: a
register that is fed from a chain of registers holds a fixed entry of it.

The rules are `run_induction` (an invariant that may mention the cycle),
`invariant` (one that may not) and `invariant_of_rule` (one that only steps
that obey a rule keep).  That something happens in the end is shown with a rank
that runs down (`runs_down`).
-/

namespace Sync

variable {σ ι α β : Type*}

/-- A clocked machine. -/
structure Machine (σ ι : Type*) where
  /-- The registers after reset. -/
  reset : σ
  /-- The registers after a clock edge. -/
  step : σ → ι → σ

/-- The inputs of a cycle and the active-low reset. -/
structure WithRstn (ι : Type*) where
  rstn : Bool
  val : ι

namespace Machine

variable (M : Machine σ ι) (u : ℕ → ι)

/-- The registers in cycle `t` since reset. -/
def state : ℕ → σ
  | 0 => M.reset
  | t + 1 => M.step (state t) (u t)

@[simp] theorem state_zero : M.state u 0 = M.reset := rfl

theorem state_succ (t : ℕ) : M.state u (t + 1) = M.step (M.state u t) (u t) := rfl

/-- The machine with a wire circuit `f` in front of its inputs. -/
def comap {κ : Type*} (f : κ → ι) : Machine σ κ where
  reset := M.reset
  step s i := M.step s (f i)

theorem comap_state {κ : Type*} (f : κ → ι) (v : ℕ → κ) (t : ℕ) :
    (M.comap f).state v t = M.state (fun n => f (v n)) t := by
  induction t with
  | zero => rfl
  | succ t ih => rw [state_succ, state_succ, ih]; rfl

/-- The machine with its synchronous reset as an input. -/
def resettable : Machine σ (WithRstn ι) where
  reset := M.reset
  step s i := if i.rstn then M.step s i.val else M.reset

/-! ### Invariants -/

variable {M u}

theorem resettable_state_succ_of_rstn {v : ℕ → WithRstn ι} {t : ℕ} (h : (v t).rstn = true) :
    M.resettable.state v (t + 1) = M.step (M.resettable.state v t) (v t).val :=
  if_pos h

theorem resettable_state_succ_of_reset {v : ℕ → WithRstn ι} {t : ℕ} (h : (v t).rstn = false) :
    M.resettable.state v (t + 1) = M.reset :=
  if_neg (by rw [h]; exact Bool.false_ne_true)

theorem run_induction {P : ℕ → σ → Prop} (h0 : P 0 M.reset)
    (hs : ∀ t, P t (M.state u t) → P (t + 1) (M.step (M.state u t) (u t))) (t : ℕ) :
    P t (M.state u t) := by
  induction t with
  | zero => exact h0
  | succ t ih => exact hs t ih

theorem invariant {P : σ → Prop} (h0 : P M.reset) (hs : ∀ s i, P s → P (M.step s i)) (t : ℕ) :
    P (M.state u t) :=
  run_induction (P := fun _ s => P s) h0 (fun _ h => hs _ _ h) t

/-- The steps of the cycles before `t` obey `rule`. -/
def Obeys (M : Machine σ ι) (rule : σ → ι → Prop) (u : ℕ → ι) (t : ℕ) : Prop :=
  ∀ n < t, rule (M.state u n) (u n)

instance (rule : σ → ι → Prop) [∀ s i, Decidable (rule s i)] (t : ℕ) :
    Decidable (M.Obeys rule u t) :=
  inferInstanceAs (Decidable (∀ n < t, rule (M.state u n) (u n)))

theorem obeys_succ {rule : σ → ι → Prop} {t : ℕ} :
    M.Obeys rule u (t + 1) ↔ M.Obeys rule u t ∧ rule (M.state u t) (u t) := by
  refine ⟨?_, ?_⟩
  · intro h
    exact ⟨fun n hn => h n (Nat.lt_succ_of_lt hn), h t (Nat.lt_succ_self t)⟩
  · rintro ⟨h, ht⟩ n hn
    rcases Nat.eq_or_lt_of_le (Nat.le_of_lt_succ hn) with rfl | hlt
    · exact ht
    · exact h n hlt

theorem Obeys.mono {rule : σ → ι → Prop} {t t' : ℕ} (h : M.Obeys rule u t) (ht : t' ≤ t) :
    M.Obeys rule u t' :=
  fun n hn => h n (Nat.lt_of_lt_of_le hn ht)

theorem Obeys.imp {rule rule' : σ → ι → Prop} {t : ℕ} (h : M.Obeys rule u t)
    (hr : ∀ s i, rule s i → rule' s i) : M.Obeys rule' u t :=
  fun n hn => hr _ _ (h n hn)

theorem invariant_of_rule {rule : σ → ι → Prop} {P : ℕ → σ → Prop} {t : ℕ}
    (hr : M.Obeys rule u t) (h0 : P 0 M.reset)
    (hs : ∀ n, rule (M.state u n) (u n) → P n (M.state u n) →
      P (n + 1) (M.step (M.state u n) (u n))) : P t (M.state u t) := by
  induction t with
  | zero => exact h0
  | succ t ih => exact hs t (hr t (Nat.lt_succ_self t)) (ih (hr.mono (Nat.le_succ t)))

/-- Once `valid`, `payload` stays as it is and stays valid until `ready`. -/
def StableUntil (M : Machine σ ι) (u : ℕ → ι) (valid : σ → Bool) (ready : ι → Bool)
    (payload : σ → α) : Prop :=
  ∀ n m, n ≤ m → valid (M.state u n) = true → (∀ k, n ≤ k → k < m → ready (u k) = false) →
    valid (M.state u m) = true ∧ payload (M.state u m) = payload (M.state u n)

theorem stableUntil_of_step {valid : σ → Bool} {ready : ι → Bool} {payload : σ → α}
    (hs : ∀ t, valid (M.state u t) = true → ready (u t) = false →
      valid (M.state u (t + 1)) = true ∧ payload (M.state u (t + 1)) = payload (M.state u t)) :
    M.StableUntil u valid ready payload := by
  intro n m hnm hv
  induction m, hnm using Nat.le_induction with
  | base => exact fun _ => ⟨hv, rfl⟩
  | succ m hnm ih =>
    intro hno
    obtain ⟨hvm, hpm⟩ := ih fun k hk hkm => hno k hk (Nat.lt_succ_of_lt hkm)
    obtain ⟨hv', hp'⟩ := hs m hvm (hno m hnm (Nat.lt_succ_self m))
    exact ⟨hv', hp'.trans hpm⟩

/-! ### What a run records -/

variable (M u)

/-- What `e` sees in the first `t` cycles, oldest first. -/
def events (e : σ → ι → Option α) : ℕ → List α
  | 0 => []
  | t + 1 => events e t ++ (e (M.state u t) (u t)).toList

/-- What `e` sees in the first `t` cycles, newest first. -/
def past (e : σ → ι → Option α) : ℕ → List α
  | 0 => []
  | t + 1 => (e (M.state u t) (u t)).toList ++ past e t

variable {M u}

@[simp] theorem events_zero (e : σ → ι → Option α) : M.events u e 0 = [] := rfl

theorem events_succ (e : σ → ι → Option α) (t : ℕ) :
    M.events u e (t + 1) = M.events u e t ++ (e (M.state u t) (u t)).toList := rfl

theorem events_succ_some {e : σ → ι → Option α} {t : ℕ} {a : α}
    (h : e (M.state u t) (u t) = some a) : M.events u e (t + 1) = M.events u e t ++ [a] := by
  rw [events_succ, h]
  rfl

theorem events_succ_none {e : σ → ι → Option α} {t : ℕ}
    (h : e (M.state u t) (u t) = none) : M.events u e (t + 1) = M.events u e t := by
  rw [events_succ, h]
  exact List.append_nil _

@[simp] theorem past_zero (e : σ → ι → Option α) : M.past u e 0 = [] := rfl

theorem past_succ (e : σ → ι → Option α) (t : ℕ) :
    M.past u e (t + 1) = (e (M.state u t) (u t)).toList ++ M.past u e t := rfl

/-- The newest entry, or `d` before there is one. -/
theorem headD_past_succ (e : σ → ι → Option α) (d : α) (t : ℕ) :
    (M.past u e (t + 1)).headD d = (e (M.state u t) (u t)).getD ((M.past u e t).headD d) := by
  rw [past_succ]
  cases e (M.state u t) (u t) with
  | none => rfl
  | some a => rfl

/-- What has been recorded stays recorded. -/
theorem events_mono (e : σ → ι → Option α) {t t' : ℕ} (h : t ≤ t') :
    M.events u e t <+: M.events u e t' := by
  induction t' with
  | zero =>
    obtain rfl : t = 0 := by omega
    exact List.prefix_refl _
  | succ n ih =>
    rcases Nat.lt_or_ge n t with hn | hn
    · obtain rfl : t = n + 1 := by omega
      exact List.prefix_refl _
    · exact (ih hn).trans (List.prefix_append _ _)

theorem past_mono (e : σ → ι → Option α) {t t' : ℕ} (h : t ≤ t') :
    M.past u e t <:+ M.past u e t' := by
  induction t', h using Nat.le_induction with
  | base => exact List.suffix_refl _
  | succ t' _ ih =>
    rw [past_succ]
    exact ih.trans (List.suffix_append _ _)

theorem past_length_lt {e : σ → ι → Option α} {n t : ℕ} {a : α} (hn : n < t)
    (ha : e (M.state u n) (u n) = some a) : (M.past u e n).length < (M.past u e t).length := by
  have hle : (M.past u e (n + 1)).length ≤ (M.past u e t).length :=
    (past_mono e (Nat.succ_le_of_lt hn)).length_le
  rw [past_succ, ha] at hle
  exact hle

/-- What `e` sees in a cycle is the entry of a later record that has as many entries
below it as there were then. -/
theorem past_getElem? {e : σ → ι → Option α} {n t k : ℕ} {a : α} (hn : n < t)
    (ha : e (M.state u n) (u n) = some a)
    (hk : (M.past u e n).length + k + 1 = (M.past u e t).length) :
    (M.past u e t)[k]? = some a := by
  obtain ⟨l, hl⟩ : M.past u e (n + 1) <:+ M.past u e t := past_mono e (Nat.succ_le_of_lt hn)
  have hsucc : M.past u e (n + 1) = a :: M.past u e n := by
    rw [past_succ, ha]
    rfl
  rw [hsucc] at hl
  have hlen : l.length = k := by
    have := congrArg List.length hl
    rw [List.length_append, List.length_cons] at this
    omega
  rw [← hl, List.getElem?_append_right (Nat.le_of_eq hlen), hlen, Nat.sub_self, List.getElem?_cons_zero]

/-- Every entry of a record was seen in some cycle. -/
theorem exists_of_lt_past {e : σ → ι → Option α} {t k : ℕ} (hk : k < (M.past u e t).length) :
    ∃ n < t, (e (M.state u n) (u n)).isSome = true ∧
      (M.past u e n).length + k + 1 = (M.past u e t).length := by
  induction t generalizing k with
  | zero => exact absurd hk (Nat.not_lt_zero k)
  | succ t ih =>
    rw [past_succ] at hk ⊢
    cases he : e (M.state u t) (u t) with
    | none =>
      rw [he] at hk
      obtain ⟨n, hn, hsome, hlen⟩ := ih hk
      exact ⟨n, Nat.lt_succ_of_lt hn, hsome, hlen⟩
    | some a =>
      rw [he] at hk
      cases k with
      | zero => exact ⟨t, Nat.lt_succ_self t, by rw [he]; rfl, rfl⟩
      | succ k =>
        obtain ⟨n, hn, hsome, hlen⟩ := ih (Nat.lt_of_succ_lt_succ hk)
        exact ⟨n, Nat.lt_succ_of_lt hn, hsome, congrArg (· + 1) hlen⟩

/-- What `e` sees in the first `t` cycles, oldest first, where a cycle may show
several things. -/
def trace (M : Machine σ ι) (u : ℕ → ι) (e : σ → ι → List α) : ℕ → List α
  | 0 => []
  | t + 1 => trace M u e t ++ e (M.state u t) (u t)

@[simp] theorem trace_zero (e : σ → ι → List α) : M.trace u e 0 = [] := rfl

theorem trace_succ (e : σ → ι → List α) (t : ℕ) :
    M.trace u e (t + 1) = M.trace u e t ++ e (M.state u t) (u t) := rfl

/-- What `e` sees from the last reset to cycle `t`, oldest first. -/
def sinceReset (M : Machine σ ι) (v : ℕ → WithRstn ι) (e : σ → ι → Option α) : ℕ → List α
  | 0 => []
  | t + 1 =>
    if (v t).rstn then sinceReset M v e t ++ (e (M.resettable.state v t) (v t).val).toList else []

theorem sinceReset_succ_of_rstn {v : ℕ → WithRstn ι} {e : σ → ι → Option α} {t : ℕ}
    (h : (v t).rstn = true) : M.sinceReset v e (t + 1)
      = M.sinceReset v e t ++ (e (M.resettable.state v t) (v t).val).toList :=
  if_pos h

theorem sinceReset_succ_of_reset {v : ℕ → WithRstn ι} {e : σ → ι → Option α} {t : ℕ}
    (h : (v t).rstn = false) : M.sinceReset v e (t + 1) = [] :=
  if_neg (by rw [h]; exact Bool.false_ne_true)

/-- Without a reset what has been recorded stays recorded. -/
theorem sinceReset_mono {v : ℕ → WithRstn ι} (hr : ∀ t, (v t).rstn = true) (e : σ → ι → Option α)
    {t t' : ℕ} (h : t ≤ t') : M.sinceReset v e t <+: M.sinceReset v e t' := by
  induction t', h using Nat.le_induction with
  | base => exact List.prefix_refl _
  | succ t' _ ih =>
    rw [sinceReset_succ_of_rstn (hr t')]
    exact ih.trans (List.prefix_append _ _)

/-- Cycle `t` is the first one after a reset, or follows a cycle of reset. -/
def AfterReset (v : ℕ → WithRstn ι) : ℕ → Prop
  | 0 => True
  | t + 1 => (v t).rstn = false

/-- Two records of the same cycles, of one machine or of two, are of one length. -/
theorem events_length_congr {σ' ι' : Type*} {M' : Machine σ' ι'} {u' : ℕ → ι'}
    {e : σ → ι → Option α} {f : σ' → ι' → Option β} {t : ℕ}
    (h : ∀ n < t, (e (M.state u n) (u n)).isSome = (f (M'.state u' n) (u' n)).isSome) :
    (M.events u e t).length = (M'.events u' f t).length := by
  induction t with
  | zero => rfl
  | succ t ih =>
    rw [events_succ, events_succ, List.length_append, List.length_append,
      ih (fun n hn => h n (by omega)), Option.length_toList, Option.length_toList, h t (by omega)]

end Machine

/-! ### Progress -/

/-- A rank that stays or falls while some of it is left, and that does not stay for
ever, runs down. -/
theorem runs_down {rank : ℕ → ℕ} (hle : ∀ m, rank m ≠ 0 → rank (m + 1) ≤ rank m)
    (hgo : ∀ m, ∃ k, m ≤ k ∧ (rank k ≠ 0 → rank (k + 1) < rank k)) (n : ℕ) :
    ∃ m, n ≤ m ∧ rank m = 0 ∧ ∀ k, n ≤ k → k < m → rank k ≠ 0 := by
  have hex : ∃ m, n ≤ m ∧ rank m = 0 := by
    by_contra hno
    have hpos : ∀ k, n ≤ k → rank k ≠ 0 := fun k hk h0 => hno ⟨k, hk, h0⟩
    have hanti : ∀ m k, n ≤ m → m ≤ k → rank k ≤ rank m := by
      intro m k hm hk
      induction k, hk using Nat.le_induction with
      | base => exact le_rfl
      | succ k hk ih => exact le_trans (hle k (hpos k (by omega))) ih
    -- a rank that never is zero would have to fall below each of its values
    have hfalls : ∀ r m, n ≤ m → rank m = r → False := by
      intro r
      induction r using Nat.strong_induction_on with
      | _ r ih =>
        intro m hm hr
        obtain ⟨k, hk, hlt⟩ := hgo m
        have hdrop := hlt (hpos k (by omega))
        have hkm := hanti m k hm hk
        exact ih (rank (k + 1)) (by omega) (k + 1) (by omega) rfl
    exact hfalls (rank n) n le_rfl rfl
  classical
  refine ⟨Nat.find hex, (Nat.find_spec hex).1, (Nat.find_spec hex).2, ?_⟩
  intro k hk hlt h0
  exact Nat.find_min hex hlt ⟨hk, h0⟩

/-- What falls in two phases, first when `A` and then when `B`, and leaves the second only by
falling, runs down if `A` and `B` hold again and again. -/
theorem runs_down_in_two {rank : ℕ → ℕ} {first : ℕ → Bool} {A B : ℕ → Prop}
    (hle : ∀ m, rank m ≠ 0 → rank (m + 1) ≤ rank m)
    (hgo : ∀ m, rank m ≠ 0 → (if first m then A m else B m) → rank (m + 1) < rank m)
    (hback : ∀ m, rank m ≠ 0 → first m = false → first (m + 1) = true → rank (m + 1) < rank m)
    (hA : ∀ m, ∃ k, m ≤ k ∧ A k) (hB : ∀ m, ∃ k, m ≤ k ∧ B k) (n : ℕ) :
    ∃ m, n ≤ m ∧ rank m = 0 := by
  have hdrop : ∀ m, ∃ k, m ≤ k ∧ (rank k ≠ 0 → rank (k + 1) < rank k) := by
    intro m
    by_contra hno
    have hstuck : ∀ k, m ≤ k → rank k ≠ 0 ∧ ¬rank (k + 1) < rank k := by
      intro k hk
      by_contra hk'
      exact hno ⟨k, hk, fun h0 => by_contra fun hlt => hk' ⟨h0, hlt⟩⟩
    obtain ⟨k, hk, hAk⟩ := hA m
    -- from `k` on it is in the second phase
    have hsecond : ∀ l, k ≤ l → first l = false := by
      intro l hl
      induction l, hl using Nat.le_induction with
      | base =>
        by_contra hf
        obtain ⟨h0, hlt⟩ := hstuck k hk
        exact hlt (hgo k h0 (by rwa [if_pos (eq_true_of_ne_false hf)]))
      | succ l hl ih =>
        by_contra hf
        obtain ⟨h0, hlt⟩ := hstuck l (Nat.le_trans hk hl)
        exact hlt (hback l h0 ih (eq_true_of_ne_false hf))
    obtain ⟨l, hl, hBl⟩ := hB k
    obtain ⟨h0, hlt⟩ := hstuck l (Nat.le_trans hk hl)
    exact hlt (hgo l h0 (by rwa [if_neg (by rw [hsecond l hl]; exact Bool.false_ne_true)]))
  obtain ⟨m, hm, hzero, _⟩ := runs_down hle hdrop n
  exact ⟨m, hm, hzero⟩

/-- A count that is behind another one by what waits, and goes on with it when `A`, catches
up. -/
theorem catches_up {f g : ℕ → ℕ} {waits : ℕ → Bool} {A : ℕ → Prop}
    (hf : ∀ m m', m ≤ m' → f m ≤ f m') (hfg : ∀ m, f m = g m + if waits m then 1 else 0)
    (hgo : ∀ m, waits m = true → A m → g (m + 1) = g m + 1)
    (hA : ∀ m, ∃ k, m ≤ k ∧ A k) (n : ℕ) : ∃ m, n ≤ m ∧ f n ≤ g m := by
  obtain ⟨m, hm, hAm⟩ := hA n
  have hmore := hf n m hm
  have hbal := hfg m
  cases hw : waits m with
  | false =>
    rw [hw, if_neg Bool.false_ne_true] at hbal
    exact ⟨m, hm, by omega⟩
  | true =>
    have hnext := hgo m hw hAm
    rw [hw, if_pos rfl] at hbal
    exact ⟨m + 1, Nat.le_succ_of_le hm, by omega⟩

/-- What holds until `A`, and `A` comes again and again, holds when `A` comes. -/
theorem stays_until {P A : ℕ → Prop} (hs : ∀ m, P m → ¬A m → P (m + 1))
    (hA : ∀ m, ∃ k, m ≤ k ∧ A k) {n : ℕ} (h : P n) : ∃ m, n ≤ m ∧ P m ∧ A m := by
  by_contra hno
  have hstays : ∀ m, n ≤ m → P m := by
    intro m hm
    induction m, hm using Nat.le_induction with
    | base => exact h
    | succ m hm ih => exact hs m ih fun hAm => hno ⟨m, hm, ih, hAm⟩
  obtain ⟨k, hk, hAk⟩ := hA n
  exact hno ⟨k, hk, hstays k hk, hAk⟩

/-- What goes up again and again while it is below `N` reaches `N`. -/
theorem grows_to {f : ℕ → ℕ} {N n : ℕ}
    (hgo : ∀ m, n ≤ m → f m < N → ∃ k, m ≤ k ∧ f m < f k) : ∃ m, n ≤ m ∧ N ≤ f m := by
  have hgap : ∀ gap m, n ≤ m → N - f m ≤ gap → ∃ k, n ≤ k ∧ N ≤ f k := by
    intro gap
    induction gap with
    | zero => exact fun m hm h0 => ⟨m, hm, Nat.sub_eq_zero_iff_le.mp (Nat.le_zero.mp h0)⟩
    | succ gap ih =>
      intro m hm hle
      rcases Nat.lt_or_ge (f m) N with hlt | hge
      · obtain ⟨k, hk, hmore⟩ := hgo m hm hlt
        exact ih k (Nat.le_trans hm hk) (by omega)
      · exact ⟨m, hm, hge⟩
  exact hgap (N - f n) n le_rfl le_rfl

end Sync
