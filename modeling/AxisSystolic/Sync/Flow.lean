import AxisSystolic.Sync.Stage

/-!
# Delivery through a series of stages

If nothing is reset and the receiver is ready again and again (`Flows`), a stage is lively
if it takes beats in again and again (`Lively`), and it delivers if what its beats carry
has come out some time after the mark that ends it has been taken in (`Delivers`).  A
series of such stages is one.

A stage whose offer is in a register, and which is steady, gives its offer out in the end
(`exists_given`).
-/

namespace Sync

namespace Stage

variable {α β γ τ : Type*} {S : Stage α β} {T : Stage β γ} {v : ℕ → WithRstn (StageIn α)} {t : ℕ}

/-- Nothing is reset, and the receiver is ready again and again. -/
structure Flows (v : ℕ → WithRstn (StageIn α)) : Prop where
  rstn : ∀ t, (v t).rstn = true
  ready : ∀ t, ∃ m, t ≤ m ∧ (v m).val.ready = true

/-- Beats are taken in again and again. -/
def Lively (S : Stage α β) : Prop :=
  ∀ v, Flows v → ∀ t, ∃ m, t ≤ m ∧
    S.ready (S.machine.resettable.state v m) (v m).val.ready = true

/-- What has been taken in up to a mark comes out. -/
def Delivers (S : Stage α β) (inn : α → List τ) (out : β → List τ) (Mark : τ → Prop) : Prop :=
  ∀ v, Flows v → ∀ t p e, Mark e → p ++ [e] <+: (S.machine.sinceReset v S.taken t).flatMap inn →
    ∃ m, t ≤ m ∧ p ++ [e] <+: (S.machine.sinceReset v S.given m).flatMap out

/-! ### In series -/

/-- What the first stage of a series sees of a run. -/
def runLeft (S : Stage α β) (T : Stage β γ) (v : ℕ → WithRstn (StageIn α)) (t : ℕ) :
    WithRstn (StageIn α) :=
  ⟨(v t).rstn, (v t).val.offer,
    T.ready ((S.series T).machine.resettable.state v t).2 (v t).val.ready⟩

/-- What the second stage sees of it. -/
def runRight (S : Stage α β) (T : Stage β γ) (v : ℕ → WithRstn (StageIn α)) (t : ℕ) :
    WithRstn (StageIn β) :=
  ⟨(v t).rstn, S.offer ((S.series T).machine.resettable.state v t).1 (v t).val.offer,
    (v t).val.ready⟩

theorem series_state (S : Stage α β) (T : Stage β γ) (v : ℕ → WithRstn (StageIn α)) (t : ℕ) :
    (S.series T).machine.resettable.state v t
      = (S.machine.resettable.state (runLeft S T v) t,
        T.machine.resettable.state (runRight S T v) t) := by
  induction t with
  | zero => rfl
  | succ t ih =>
    cases hr : (v t).rstn with
    | false =>
      have hl : (runLeft S T v t).rstn = false := hr
      have hrr : (runRight S T v t).rstn = false := hr
      rw [Machine.resettable_state_succ_of_reset hr, Machine.resettable_state_succ_of_reset hl,
        Machine.resettable_state_succ_of_reset hrr]
      rfl
    | true =>
      have hl : (runLeft S T v t).rstn = true := hr
      have hrr : (runRight S T v t).rstn = true := hr
      rw [Machine.resettable_state_succ_of_rstn hr, Machine.resettable_state_succ_of_rstn hl,
        Machine.resettable_state_succ_of_rstn hrr, runLeft, runRight, ih]
      rfl

/-- Two records of one run are the same if they see the same in each cycle. -/
theorem sinceReset_congr {σ σ' ι ι' : Type*} {M : Machine σ ι} {M' : Machine σ' ι'}
    {u : ℕ → WithRstn ι} {u' : ℕ → WithRstn ι'} {e : σ → ι → Option α} {e' : σ' → ι' → Option α}
    (hr : ∀ t, (u t).rstn = (u' t).rstn)
    (he : ∀ t, e (M.resettable.state u t) (u t).val = e' (M'.resettable.state u' t) (u' t).val)
    (t : ℕ) : M.sinceReset u e t = M'.sinceReset u' e' t := by
  induction t with
  | zero => rfl
  | succ t ih => rw [Machine.sinceReset, Machine.sinceReset, hr t, he t, ih]

theorem series_taken (S : Stage α β) (T : Stage β γ) (v : ℕ → WithRstn (StageIn α)) (t : ℕ) :
    (S.series T).machine.sinceReset v (S.series T).taken t
      = S.machine.sinceReset (runLeft S T v) S.taken t := by
  apply sinceReset_congr
  · exact fun _ => rfl
  · intro t
    rw [runLeft, series_state]
    rfl

theorem series_mid (S : Stage α β) (T : Stage β γ) (v : ℕ → WithRstn (StageIn α)) (t : ℕ) :
    S.machine.sinceReset (runLeft S T v) S.given t
      = T.machine.sinceReset (runRight S T v) T.taken t := by
  apply sinceReset_congr
  · exact fun _ => rfl
  · intro t
    rw [runLeft, runRight, series_state]
    rfl

theorem series_given (S : Stage α β) (T : Stage β γ) (v : ℕ → WithRstn (StageIn α)) (t : ℕ) :
    (S.series T).machine.sinceReset v (S.series T).given t
      = T.machine.sinceReset (runRight S T v) T.given t := by
  apply sinceReset_congr
  · exact fun _ => rfl
  · intro t
    rw [runRight, series_state]
    rfl

theorem flows_right (h : Flows v) : Flows (runRight S T v) := ⟨h.rstn, h.ready⟩

theorem flows_left (hT : T.Lively) (h : Flows v) : Flows (runLeft S T v) := by
  refine ⟨h.rstn, ?_⟩
  intro t
  obtain ⟨m, hm, hr⟩ := hT _ (flows_right (S := S) h) t
  refine ⟨m, hm, ?_⟩
  rw [runLeft, series_state]
  exact hr

theorem Lively.series (hS : S.Lively) (hT : T.Lively) : (S.series T).Lively := by
  intro v h t
  obtain ⟨m, hm, hr⟩ := hS _ (flows_left (S := S) hT h) t
  refine ⟨m, hm, ?_⟩
  rw [series_state]
  rw [runLeft, series_state] at hr
  exact hr

theorem Lively.wire (f : α → β) : (Stage.wire f).Lively := fun _ h t => h.ready t

theorem Delivers.series {inn : α → List τ} {mid : β → List τ} {out : γ → List τ} {Mark : τ → Prop}
    (hS : S.Delivers inn mid Mark) (hT : T.Delivers mid out Mark) (hl : T.Lively) :
    (S.series T).Delivers inn out Mark := by
  intro v h t p e he hp
  rw [series_taken] at hp
  obtain ⟨m, hm, hp'⟩ := hS _ (flows_left hl h) t p e he hp
  rw [series_mid] at hp'
  obtain ⟨m', hm', hp''⟩ := hT _ (flows_right h) m p e he hp'
  refine ⟨m', Nat.le_trans hm hm', ?_⟩
  rw [series_given]
  exact hp''

theorem Delivers.wire {f : α → β} {inn : α → List τ} {mid : β → List τ} {Mark : τ → Prop}
    (h : ∀ a, mid (f a) = inn a) : (Stage.wire f).Delivers inn mid Mark := by
  intro v _ t p e _ hp
  refine ⟨t, le_rfl, ?_⟩
  rw [(Conserves.wire h).balance v t] at hp
  simpa [Conserves.wire] using hp

/-! ### Offers from a register -/

/-- What is offered is in a register. -/
def Registered (S : Stage α β) : Prop := ∀ r o o', S.offer r o = S.offer r o'

/-- A mark that does not come later has come. -/
theorem prefix_of_mark {p g f : List τ} {e : τ} (h : p ++ [e] <+: g ++ f) (hf : e ∉ f) :
    p ++ [e] <+: g := by
  rcases List.prefix_or_prefix_of_prefix h (List.prefix_append g f) with hg | hg
  · exact hg
  · obtain ⟨l, hl⟩ := hg
    rw [← hl, List.prefix_append_right_inj] at h
    rcases List.eq_nil_or_concat l with rfl | ⟨l', x, rfl⟩
    · exact ⟨[], by simpa using hl.symm⟩
    · rw [List.concat_eq_append] at h
      rw [List.concat_eq_append, ← List.append_assoc] at hl
      have hx : x = e := List.singleton_inj.mp (List.append_inj_right' hl rfl)
      exact absurd (h.subset (List.mem_append_right _ (List.mem_singleton.mpr hx.symm))) hf

/-- What is offered is given out when the receiver is ready next. -/
theorem exists_given {P : S.Regs → Prop} (hS : S.Steady P) (hreg : S.Registered)
    (hP : ∀ t, P (S.machine.resettable.state v t)) (h : Flows v)
    (ho : (S.offer (S.machine.resettable.state v t) (v t).val.offer).valid = true) :
    ∃ m, t ≤ m ∧ (v m).val.ready = true ∧ S.machine.sinceReset v S.given (m + 1)
      = S.machine.sinceReset v S.given t
        ++ [(S.offer (S.machine.resettable.state v t) (v t).val.offer).beat] := by
  classical
  have hex : ∃ k, (v (t + k)).val.ready = true := by
    obtain ⟨m, hm, hr⟩ := h.ready t
    exact ⟨m - t, by rwa [Nat.add_sub_cancel' hm]⟩
  -- until then nothing is given out, and the offer stays
  have hstay : ∀ k ≤ Nat.find hex,
      S.machine.sinceReset v S.given (t + k) = S.machine.sinceReset v S.given t ∧
      S.offer (S.machine.resettable.state v (t + k)) (v (t + k)).val.offer
        = S.offer (S.machine.resettable.state v t) (v t).val.offer := by
    intro k hk
    induction k with
    | zero => exact ⟨rfl, rfl⟩
    | succ k ih =>
      obtain ⟨hgave, hoff⟩ := ih (Nat.le_of_succ_le hk)
      have hno : (v (t + k)).val.ready = false := by
        simpa using Nat.find_min hex (Nat.lt_of_succ_le hk)
      have hnone : S.given (S.machine.resettable.state v (t + k)) (v (t + k)).val = none := by
        simp [given, hno]
      refine ⟨?_, ?_⟩
      · rw [← Nat.add_assoc, Machine.sinceReset_succ_of_rstn (h.rstn _), hnone, hgave]
        exact List.append_nil _
      · rw [← Nat.add_assoc, Machine.resettable_state_succ_of_rstn (h.rstn _),
          hreg _ _ (v (t + k)).val.offer, ← hoff]
        exact hS _ _ _ (hP _) (fun _ _ => rfl) (by rw [hoff]; exact ho) hno
  obtain ⟨hgave, hoff⟩ := hstay _ le_rfl
  refine ⟨t + Nat.find hex, Nat.le_add_right _ _, Nat.find_spec hex, ?_⟩
  have hsome : S.given (S.machine.resettable.state v (t + Nat.find hex))
      (v (t + Nat.find hex)).val
      = some (S.offer (S.machine.resettable.state v t) (v t).val.offer).beat := by
    rw [given, hoff, ho, Nat.find_spec hex]
    rfl
  rw [Machine.sinceReset_succ_of_rstn (h.rstn _), hsome, hgave]
  rfl

/-! ### Faithful stages -/

/-- A stage loses and adds nothing of what its beats carry, keeps what it offers, takes in
again and again and delivers. -/
structure Faithful (S : Stage α β) (inn : α → List τ) (out : β → List τ) (Mark : τ → Prop) :
    Prop where
  conserves : Nonempty (S.Conserves inn out)
  steady : S.Steady fun _ => True
  lively : S.Lively
  delivers : S.Delivers inn out Mark

namespace Faithful

variable {inn : α → List τ} {mid : β → List τ} {out : γ → List τ} {Mark : τ → Prop}

theorem wire {f : α → β} (h : ∀ a, mid (f a) = inn a) : (Stage.wire f).Faithful inn mid Mark :=
  ⟨⟨.wire h⟩, .wire f, .wire f, .wire h⟩

theorem series (hS : S.Faithful inn mid Mark) (hT : T.Faithful mid out Mark) :
    (S.series T).Faithful inn out Mark where
  conserves := by
    obtain ⟨cS⟩ := hS.conserves
    obtain ⟨cT⟩ := hT.conserves
    exact ⟨cS.series cT⟩
  steady r i o' _ := hS.steady.series hT.steady r i o' ⟨trivial, trivial⟩
  lively := hS.lively.series hT.lively
  delivers := hS.delivers.series hT.delivers hT.lively

/-- What has come out is the first part of what has been taken in. -/
theorem given_prefix (hS : S.Faithful inn mid Mark) (v : ℕ → WithRstn (StageIn α)) (t : ℕ) :
    (S.machine.sinceReset v S.given t).flatMap mid
      <+: (S.machine.sinceReset v S.taken t).flatMap inn := by
  obtain ⟨c⟩ := hS.conserves
  rw [c.balance v t]
  exact List.prefix_append _ _

end Faithful

end Stage

end Sync
