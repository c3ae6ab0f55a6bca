import AxisSystolic.Sync.Machine

/-!
# Stages of a stream

A stage takes beats in on one side and gives beats out on the other, with a handshake on
each.  What it offers may pass on what its sender offers, and its `ready` may pass on that
of its receiver; the other way round there is no wire, so stages can be put in `series`.

A stage conserves what its beats carry if a cycle only moves it: what is held and what is
taken in is what is given out and what is held then (`Conserves`).  It is steady if it
keeps offering what is not taken, as long as its sender does so too (`Steady`).  A series
of such stages is one (`Conserves.series`, `Steady.series`), and a run of one has given
out what it has taken in, but for what it holds (`Conserves.balance`).
-/

namespace Sync

/-- The wires from a sender. -/
structure Offer (α : Type*) where
  valid : Bool
  beat : α

/-- The inputs of a stage in a cycle. -/
structure StageIn (α : Type*) where
  offer : Offer α
  ready : Bool

/-- A stage from beats of `α` to beats of `β`. -/
structure Stage (α β : Type*) where
  Regs : Type
  reset : Regs
  step : Regs → StageIn α → Regs
  /-- `ready` towards the sender, from that of the receiver. -/
  ready : Regs → Bool → Bool
  /-- The wires to the receiver, from those of the sender. -/
  offer : Regs → Offer α → Offer β

namespace Stage

variable {α β γ τ : Type*}

/-- A stage without registers. -/
def wire (f : α → β) : Stage α β where
  Regs := Unit
  reset := ()
  step _ _ := ()
  ready _ r := r
  offer _ o := ⟨o.valid, f o.beat⟩

/-- One stage behind the other. -/
def series (S : Stage α β) (T : Stage β γ) : Stage α γ where
  Regs := S.Regs × T.Regs
  reset := (S.reset, T.reset)
  step r i := (S.step r.1 ⟨i.offer, T.ready r.2 i.ready⟩, T.step r.2 ⟨S.offer r.1 i.offer, i.ready⟩)
  ready r b := S.ready r.1 (T.ready r.2 b)
  offer r o := T.offer r.2 (S.offer r.1 o)

variable (S : Stage α β)

/-- The clocked machine of a stage. -/
def machine : Machine S.Regs (StageIn α) where
  reset := S.reset
  step := S.step

/-- The beat that is taken in. -/
def taken (r : S.Regs) (i : StageIn α) : Option α :=
  if i.offer.valid && S.ready r i.ready then some i.offer.beat else none

/-- The beat that is given out. -/
def given (r : S.Regs) (i : StageIn α) : Option β :=
  if (S.offer r i.offer).valid && i.ready then some (S.offer r i.offer).beat else none

variable {S} {T : Stage β γ}

theorem wire_given (f : α → β) (r : (wire f).Regs) (i : StageIn α) :
    (wire f).given r i = ((wire f).taken r i).map f := by
  show (if (i.offer.valid && i.ready) = true then _ else _) =
    Option.map f (if (i.offer.valid && i.ready) = true then _ else _)
  cases i.offer.valid && i.ready <;> rfl

/-- What one stage gives out the next one takes in. -/
theorem given_eq_taken (r : S.Regs) (q : T.Regs) (i : StageIn α) :
    S.given r ⟨i.offer, T.ready q i.ready⟩ = T.taken q ⟨S.offer r i.offer, i.ready⟩ := rfl

/-! ### What is carried -/

/-- What the beats carry, `inn` on one side and `out` on the other, is conserved. -/
structure Conserves (S : Stage α β) (inn : α → List τ) (out : β → List τ) where
  /-- What is held, the next to be given out first. -/
  held : S.Regs → List τ
  Inv : S.Regs → Prop
  inv_reset : Inv S.reset
  inv_step : ∀ r i, Inv r → Inv (S.step r i)
  held_reset : held S.reset = []
  moves : ∀ r i, Inv r → held r ++ (S.taken r i).toList.flatMap inn
    = (S.given r i).toList.flatMap out ++ held (S.step r i)

namespace Conserves

variable {inn : α → List τ} {mid : β → List τ} {out : γ → List τ}

def wire {f : α → β} (h : ∀ a, mid (f a) = inn a) : Conserves (Stage.wire f) inn mid where
  held _ := []
  Inv _ := True
  inv_reset := trivial
  inv_step _ _ _ := trivial
  held_reset := rfl
  moves r i _ := by
    rw [wire_given]
    cases (Stage.wire f).taken r i with
    | none => rfl
    | some a => simp [h]

/-- What is conserved, taken apart. -/
def refine {κ : Type*} {inn' : α → List κ} {mid' : β → List κ} (hS : Conserves S inn mid)
    (f : τ → List κ) (hi : ∀ a, inn' a = (inn a).flatMap f) (ho : ∀ b, mid' b = (mid b).flatMap f) :
    Conserves S inn' mid' where
  held r := (hS.held r).flatMap f
  Inv := hS.Inv
  inv_reset := hS.inv_reset
  inv_step := hS.inv_step
  held_reset := by rw [hS.held_reset, List.flatMap_nil]
  moves r i h := by
    have hinn : inn' = fun a => (inn a).flatMap f := funext hi
    have hmid : mid' = fun b => (mid b).flatMap f := funext ho
    rw [hinn, hmid, ← List.flatMap_assoc, ← List.flatMap_assoc, ← List.flatMap_append,
      ← List.flatMap_append, hS.moves r i h]

def series (hS : Conserves S inn mid) (hT : Conserves T mid out) :
    Conserves (S.series T) inn out where
  held r := hT.held r.2 ++ hS.held r.1
  Inv r := hS.Inv r.1 ∧ hT.Inv r.2
  inv_reset := ⟨hS.inv_reset, hT.inv_reset⟩
  inv_step r i h := ⟨hS.inv_step _ _ h.1, hT.inv_step _ _ h.2⟩
  held_reset := by
    show hT.held T.reset ++ hS.held S.reset = []
    rw [hS.held_reset, hT.held_reset]
    rfl
  moves r i h := by
    have hs := hS.moves r.1 ⟨i.offer, T.ready r.2 i.ready⟩ h.1
    have ht := hT.moves r.2 ⟨S.offer r.1 i.offer, i.ready⟩ h.2
    rw [given_eq_taken] at hs
    calc hT.held r.2 ++ hS.held r.1 ++ ((S.series T).taken r i).toList.flatMap inn
        = hT.held r.2 ++ (hS.held r.1
            ++ (S.taken r.1 ⟨i.offer, T.ready r.2 i.ready⟩).toList.flatMap inn) :=
          List.append_assoc ..
      _ = hT.held r.2 ++ (T.taken r.2 ⟨S.offer r.1 i.offer, i.ready⟩).toList.flatMap mid
            ++ hS.held ((S.series T).step r i).1 := by
          rw [hs, List.append_assoc]
          rfl
      _ = ((S.series T).given r i).toList.flatMap out
            ++ (hT.held ((S.series T).step r i).2 ++ hS.held ((S.series T).step r i).1) := by
          rw [ht, List.append_assoc]
          rfl

variable {out : β → List τ} {v : ℕ → WithRstn (StageIn α)}

theorem inv (h : Conserves S inn out) (v : ℕ → WithRstn (StageIn α)) (t : ℕ) :
    h.Inv (S.machine.resettable.state v t) := by
  apply Machine.invariant h.inv_reset
  intro r i hr
  show h.Inv (if i.rstn then S.step r i.val else S.reset)
  cases i.rstn with
  | false => exact h.inv_reset
  | true => exact h.inv_step r i.val hr

/-- **What has been taken in has been given out or is held.** -/
theorem balance (h : Conserves S inn out) (v : ℕ → WithRstn (StageIn α)) (t : ℕ) :
    (S.machine.sinceReset v S.taken t).flatMap inn
      = (S.machine.sinceReset v S.given t).flatMap out
        ++ h.held (S.machine.resettable.state v t) := by
  induction t with
  | zero => exact h.held_reset.symm
  | succ t ih =>
    cases hr : (v t).rstn with
    | false =>
      rw [Machine.sinceReset_succ_of_reset hr, Machine.sinceReset_succ_of_reset hr,
        Machine.resettable_state_succ_of_reset hr]
      exact h.held_reset.symm
    | true =>
      rw [Machine.sinceReset_succ_of_rstn hr, Machine.sinceReset_succ_of_rstn hr,
        Machine.resettable_state_succ_of_rstn hr, List.flatMap_append, List.flatMap_append, ih,
        List.append_assoc, List.append_assoc]
      exact congrArg _ (h.moves _ _ (h.inv v t))

end Conserves

/-! ### What is offered -/

/-- What is not taken is offered again, as long as the sender does so. -/
def Steady (S : Stage α β) (Inv : S.Regs → Prop) : Prop :=
  ∀ r i o', Inv r → (i.offer.valid = true → S.ready r i.ready = false → o' = i.offer) →
    (S.offer r i.offer).valid = true → i.ready = false →
    S.offer (S.step r i) o' = S.offer r i.offer

namespace Steady

variable {P : S.Regs → Prop} {Q : T.Regs → Prop}

theorem wire (f : α → β) : (Stage.wire f).Steady fun _ => True := by
  intro r i o' _ hrely hv hr
  rw [hrely hv hr]
  rfl

theorem series (hS : S.Steady P) (hT : T.Steady Q) :
    (S.series T).Steady fun r => P r.1 ∧ Q r.2 := by
  intro r i o' h hrely hv hr
  refine hT r.2 ⟨S.offer r.1 i.offer, i.ready⟩ _ h.2 ?_ hv hr
  intro hv' hr'
  exact hS r.1 ⟨i.offer, T.ready r.2 i.ready⟩ o' h.1 hrely hv' hr'

end Steady

variable {v : ℕ → WithRstn (StageIn α)} {t : ℕ}

/-- The sender offers a beat until it is taken. -/
def SenderHolds (S : Stage α β) (v : ℕ → WithRstn (StageIn α)) : Prop :=
  ∀ t, (v t).rstn = true → (v t).val.offer.valid = true →
    S.ready (S.machine.resettable.state v t) (v t).val.ready = false →
    (v (t + 1)).val.offer = (v t).val.offer

theorem Steady.run {P : S.Regs → Prop} (hS : S.Steady P)
    (hP : ∀ t, P (S.machine.resettable.state v t)) (hv : S.SenderHolds v)
    (hr : (v t).rstn = true)
    (ho : (S.offer (S.machine.resettable.state v t) (v t).val.offer).valid = true)
    (hno : (v t).val.ready = false) :
    S.offer (S.machine.resettable.state v (t + 1)) (v (t + 1)).val.offer
      = S.offer (S.machine.resettable.state v t) (v t).val.offer := by
  rw [Machine.resettable_state_succ_of_rstn hr]
  exact hS _ (v t).val _ (hP t) (hv t hr) ho hno

end Stage

end Sync
