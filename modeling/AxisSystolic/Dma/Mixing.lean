import AxisSystolic.Dma.Confined

/-!
# Overlapping calls of `SA_IOC_RUN`

A call writes the four lengths and then `START`, and the controller hands the
lengths to the engines while the bit is set.  Nothing keeps another call from
writing a length in between.  A launch has the lengths of its own call if no
length is written over one that a call still relies on (`Unmixed`).
-/

namespace AxisSystolic

open Sync

def IsBytes (a : ℕ) : Prop := ∃ c : Channel, a = c.aBytes

theorem IsBytes.softwareOnly {a : ℕ} (h : IsBytes a) : Cfg.SoftwareOnly a := by
  obtain ⟨c, rfl⟩ := h
  exact Cfg.softwareOnly_aBytes c

namespace Sys

variable {ι : Type*} {sa : SaDev} {s : Sys ι} {i : SysIn ι}

/-- Client `k` writes `START` in `SA_IOC_RUN` with `cfg`. -/
def RunStarts (s : Sys ι) (i : SysIn ι) (k : ι) (cfg : RunConfig) : Prop :=
  i.bus = some k ∧ s.call k = .run (.start cfg)

/-- A length is written only if every other call that has written the same
register, and has not written `START` yet, has written the same length there,
and if a launch that is pending has that length, too. -/
def Unmixed (sa : SaDev) (s : Sys ι) (i : SysIn ι) : Prop :=
  s.Agreed sa IsBytes i ∧ (s.cfg.start = true → ∀ (c : Channel) (value : BitVec 32),
    s.access i = some (.write c.aBytes value) → s.cfg c.aBytes = value)

/-- The lengths in the registers are those of `cfg`. -/
def HasLengths (s : Sys ι) (cfg : RunConfig) : Prop := ∀ c : Channel, s.cfg c.aBytes = cfg.bytes c

theorem RunStarts.access_eq {k : ι} {cfg : RunConfig} (h : s.RunStarts i k cfg) :
    s.access i = some (.write aStart 1) := by
  rw [access, h.1, Option.bind_some, h.2]
  rfl

/-- When a call writes `START`, its lengths are in the registers. -/
theorem RunStarts.hasLengths {k : ι} {cfg : RunConfig} (h : s.RunStarts i k cfg)
    (hin : s.Intact sa IsBytes) : s.HasLengths cfg := by
  intro c
  apply hin k (c.aBytes, cfg.bytes c) _ ⟨c, rfl⟩
  rw [h.2]
  exact mem_program_iff.mpr ⟨c, Or.inr rfl⟩

variable [DecidableEq ι]

/-- A cycle is unmixed if what the calls have written and the lengths of a
pending launch are still there after it. -/
theorem Orderly.unmixed (ho : s.Orderly sa)
    (hwritten : ∀ k, ∀ w ∈ (s.call k).written sa, IsBytes w.1 → (s.step sa i).cfg w.1 = w.2)
    (hpending : s.cfg.start = true → ∀ c : Channel,
      (s.step sa i).cfg c.aBytes = s.cfg c.aBytes) : s.Unmixed sa i := by
  have hnext : ∀ reg value, s.access i = some (.write reg value) →
      (s.step sa i).cfg reg = value := fun _ _ hacc => step_of_write hacc (ho.reg_lt hacc)
  refine ⟨?_, ?_⟩
  · intro j reg value hb hj hreg k _ w hw hwr
    have hacc : s.access i = some (.write reg value) := by rw [access, hb, Option.bind_some, hj]
    rw [← hwritten k w hw (hwr ▸ hreg), hwr, hnext reg value hacc]
  · intro hs c value hacc
    rw [← hpending hs c, hnext c.aBytes value hacc]

theorem RunStarts.step_start {k : ι} {cfg : RunConfig} (h : s.RunStarts i k cfg) :
    (s.step sa i).cfg.start = true := by
  show (s.cfg.step (s.dmaIn i) aStart).getLsbD 0 = true
  rw [step_of_write h.access_eq (by decide)]
  decide

theorem RunStarts.step_hasLengths {k : ι} {cfg : RunConfig} (h : s.RunStarts i k cfg)
    (ho : s.Orderly sa) (hin : s.Intact sa IsBytes) : (s.step sa i).HasLengths cfg := by
  intro c
  show s.cfg.step (s.dmaIn i) c.aBytes = cfg.bytes c
  rw [ho.step_of_not_write (Cfg.softwareOnly_aBytes c)]
  · exact h.hasLengths hin c
  · rintro ⟨value, hacc⟩
    rw [h.access_eq] at hacc
    cases c <;> cases hacc

/-- While a launch is pending the lengths stay. -/
theorem HasLengths.step {cfg : RunConfig} (h : s.HasLengths cfg) (ho : s.Orderly sa)
    (hs : s.cfg.start = true) (hu : s.Unmixed sa i) : (s.step sa i).HasLengths cfg := by
  intro c
  show s.cfg.step (s.dmaIn i) c.aBytes = cfg.bytes c
  by_cases hwr : ∃ value, s.access i = some (.write c.aBytes value)
  · obtain ⟨value, hacc⟩ := hwr
    rw [step_of_write hacc (ho.reg_lt hacc), ← hu.2 hs c value hacc]
    exact h c
  · rw [ho.step_of_not_write (Cfg.softwareOnly_aBytes c) hwr]
    exact h c

end Sys

/-! ### Runs -/

section Runs

variable {ι : Type*} [DecidableEq ι] {sa : SaDev} {u : ℕ → SysIn ι} {t : ℕ}

theorem intact_isBytes_run (hu : ∀ n, NoWriteReg (u n))
    (hr : (clients ι sa).Obeys (Sys.Unmixed sa) u t) :
    ((clients ι sa).state u t).Intact sa IsBytes := by
  induction t with
  | zero => exact Sys.intact_reset sa IsBytes
  | succ t ih =>
    obtain ⟨hpast, hnow⟩ := Machine.obeys_succ.mp hr
    exact (ih hpast).step (orderly_run hu t) (fun _ ha => ha.softwareOnly) hnow.1

end Runs

/-- **If no length is written over one that a call or a pending launch relies
on, every `START` of `SA_IOC_RUN` launches with the lengths of its own call:
they are in the registers in every cycle in which its launch is pending.** -/
theorem launches_own_lengths (ι : Type*) [DecidableEq ι] (sa : SaDev) (u : ℕ → SysIn ι) (t : ℕ)
    (hu : ∀ n, NoWriteReg (u n)) (hr : (clients ι sa).Obeys (Sys.Unmixed sa) u t) (n : ℕ)
    (hn : n < t) (k : ι) (cfg : RunConfig)
    (hs : ((clients ι sa).state u n).RunStarts (u n) k cfg) :
    ((clients ι sa).state u (n + 1)).cfg.start = true ∧
      ∀ m, n < m → m ≤ t →
        (∀ l, n < l → l < m → ((clients ι sa).state u l).cfg.start = true) →
        ((clients ι sa).state u m).HasLengths cfg := by
  refine ⟨hs.step_start, ?_⟩
  intro m hm
  induction m, hm using Nat.le_induction with
  | base =>
    intro _ _
    exact hs.step_hasLengths (orderly_run hu n) (intact_isBytes_run hu (hr.mono (by omega)))
  | succ m hm ih =>
    intro hmt hpending
    have hm' := ih (by omega) fun l hl hlm => hpending l hl (by omega)
    exact hm'.step (orderly_run hu m) (hpending m hm (Nat.lt_succ_self m)) (hr m (by omega))

/-- The call with length `4096` starts after the other has written its `64` for
`mm2s_0`. -/
theorem overlappingRuns_mixed :
    (∀ n k cmd, (overlappingRuns n).issue k = some cmd → ∃ cfg, cmd = .run cfg) ∧
    ((clients Bool probedDev.toSaDev).state overlappingRuns 11).RunStarts (overlappingRuns 11) false
      ⟨fun _ => 4096, 0⟩ ∧
    ((clients Bool probedDev.toSaDev).state overlappingRuns 12).cfg.start = true ∧
    ¬ ((clients Bool probedDev.toSaDev).state overlappingRuns 12).HasLengths
      ⟨fun _ => 4096, 0⟩ := by
  refine ⟨?_, ⟨rfl, rfl⟩, by decide +kernel, ?_⟩
  · intro n k cmd h
    cases n with
    | zero =>
      cases h
      exact ⟨_, rfl⟩
    | succ n => cases h
  · intro h
    have h0 := h .mm2s0
    revert h0
    decide +kernel

/-- Both clients call with the same length.  The second writes it for `mm2s_0`
before the first writes `START`, and for `mm2s_1` while the launch is pending. -/
def agreeingRuns : ℕ → SysIn Bool
  | 0 => ⟨fun _ => some (.run ⟨fun _ => 4096, 0⟩), none, fun _ => false, fun _ => false, fun _ => 0⟩
  | t + 1 => busCycle (decide (8 ≤ t ∧ t ≠ 10))

theorem agreeingRuns_noWriteReg : ∀ n, NoWriteReg (agreeingRuns n) :=
  noWriteReg_of_runs (fun _ => rfl) fun _ _ => rfl

theorem agreeingRuns_unmixed :
    (clients Bool probedDev.toSaDev).Obeys (Sys.Unmixed probedDev.toSaDev) agreeingRuns 14 := by
  have hwritten : ∀ n < 14, ∀ k, ∀ w ∈ (((clients Bool probedDev.toSaDev).state agreeingRuns
      n).call k).written probedDev.toSaDev,
      ((clients Bool probedDev.toSaDev).state agreeingRuns (n + 1)).cfg w.1 = w.2 := by
    decide +kernel
  have hpending : ∀ n < 14, ((clients Bool probedDev.toSaDev).state agreeingRuns n).cfg.start
      = true → ∀ c : Channel,
      ((clients Bool probedDev.toSaDev).state agreeingRuns (n + 1)).cfg c.aBytes
        = ((clients Bool probedDev.toSaDev).state agreeingRuns n).cfg c.aBytes := by
    decide +kernel
  intro n hn
  exact (orderly_run agreeingRuns_noWriteReg n).unmixed
    (fun k w hw _ => hwritten n hn k w hw) (hpending n hn)

theorem agreeingRuns_own_lengths :
    ((clients Bool probedDev.toSaDev).state agreeingRuns 10).access (agreeingRuns 10)
      = some (.write Channel.mm2s0.aBytes 4096) ∧
    ((clients Bool probedDev.toSaDev).state agreeingRuns 13).access (agreeingRuns 13)
      = some (.write Channel.mm2s1.aBytes 4096) ∧
    ((clients Bool probedDev.toSaDev).state agreeingRuns 14).HasLengths ⟨fun _ => 4096, 0⟩ := by
  have hpending : ∀ l < 14, 11 < l →
      ((clients Bool probedDev.toSaDev).state agreeingRuns l).cfg.start = true := by
    decide +kernel
  have hrun := launches_own_lengths Bool probedDev.toSaDev agreeingRuns 14 agreeingRuns_noWriteReg
    agreeingRuns_unmixed 11 (by decide) false ⟨fun _ => 4096, 0⟩ ⟨rfl, rfl⟩
  exact ⟨rfl, rfl, hrun.2 14 (by decide) le_rfl fun l hl hlm => hpending l hlm hl⟩

end AxisSystolic
