import AxisSystolic.Dma.Driver

/-!
# A call and its completions

One client runs jobs through the driver, the controller and four engines.  An
engine accepts a descriptor only while it has none to report, and reports each
with one status pulse.  `DONE` registers do not say whose completion they
record, so a call that returns `0` has seen its own completions only if nothing
of an earlier job was left when it wrote `START` (`CleanStart`): after a call
that has timed out the old job's completions arrive under the new job.
-/

namespace AxisSystolic

open Sync

/-! ### The system -/

/-- The controller, the engines with a descriptor to report, and the client. -/
structure Hw where
  cfg : Cfg dma32
  busy : Channel → Bool
  run : Run

/-- What happens in a cycle: a call of `SA_IOC_RUN`, the client's next register
access, and what the engines do. -/
structure HwIn where
  call : Option RunConfig
  go : Bool
  ready : Channel → Bool
  finish : Channel → Bool
  error : Channel → BitVec 4

namespace Hw

def reset : Hw where
  cfg := Cfg.reset dma32
  busy := fun _ => false
  run := .idle

variable (sa : SaDev) (s : Hw) (i : HwIn)

/-- The register access of the cycle. -/
def access : Option Access := if i.go then s.run.access else none

def rdData : BitVec 32 :=
  match s.run.access with
  | some (.read reg) => s.cfg.regRdData reg
  | _ => 0

/-- The ports of the controller. -/
def dmaIn : DmaIn dma32 where
  regWrEn := match s.access i with
    | some (.write _ _) => true
    | _ => false
  regWrAddr := match s.access i with
    | some (.write reg _) => BitVec.ofNat 32 reg
    | _ => 0
  regWrData := match s.access i with
    | some (.write _ value) => value
    | _ => 0
  ready c := !s.busy c && i.ready c
  statusValid c := s.busy c && i.finish c
  statusError := i.error

/-- The engine of channel `c` accepts a descriptor, or reports one. -/
def accepts (c : Channel) : Bool := s.cfg.taken (s.dmaIn i) c
def reports (c : Channel) : Bool := s.busy c && i.finish c

/-- It reports without an error. -/
def completes (c : Channel) : Bool := Cfg.done (s.dmaIn i) c

/-- The client writes `START`. -/
def startWrite : Bool := Cfg.startNext (s.dmaIn i)

/-- The client after the cycle, and what a call returns in it. -/
def runNext : Run × Option Ret :=
  match s.run with
  | .idle =>
    match i.call with
    | some cfg => Run.enter sa cfg
    | none => (.idle, none)
  | r => if i.go then r.next s.rdData else (r, none)

def step : Hw where
  cfg := s.cfg.step (s.dmaIn i)
  busy c := s.accepts i c || (s.busy c && !s.reports i c)
  run := (runNext sa s i).1

def returned : Option Ret := (runNext sa s i).2

end Hw

/-- The system of one client. -/
def hw (sa : SaDev) : Machine Hw HwIn where
  reset := Hw.reset
  step := Hw.step sa

/-- When `START` is written, the bit is clear and no engine has a descriptor to
report. -/
def CleanStart (s : Hw) (i : HwIn) : Prop :=
  s.startWrite i = true → s.cfg.start = false ∧ ∀ c, s.busy c = false

instance (s : Hw) (i : HwIn) : Decidable (CleanStart s i) :=
  inferInstanceAs (Decidable (_ → _ ∧ ∀ c, s.busy c = false))

/-! ### One cycle -/

namespace Hw

variable {sa : SaDev} {s : Hw} {i : HwIn} {c : Channel}

theorem start_of_accepts (h : s.accepts i c = true) : s.cfg.start = true := by
  rw [accepts, Cfg.taken, Bool.and_eq_true] at h
  obtain ⟨hv, _⟩ := h
  cases c <;> exact (Bool.and_eq_true_iff.mp hv).1

theorem reports_of_completes (h : s.completes i c = true) : s.reports i c = true := by
  rw [completes, Cfg.done, Bool.and_eq_true] at h
  exact h.1

/-- A call that polls writes nothing. -/
theorem regWrEn_of_polling (h : s.run.polling = true) : (s.dmaIn i).regWrEn = false := by
  rw [dmaIn]
  cases hr : s.run with
  | poll left status c' todo =>
    cases hg : i.go <;> simp [access, hg, hr, Run.access]
  | _ => rw [hr] at h; cases h

theorem step_done_of_polling (h : s.run.polling = true) (c : Channel) :
    (step sa s i).cfg c.aDone = if s.completes i c = true then 1 else s.cfg c.aDone := by
  have hen := regWrEn_of_polling (i := i) h
  have hw : ¬ Cfg.writes (s.dmaIn i) c.aDone := by
    intro hw
    rw [Cfg.writes, hen] at hw
    cases hw.1
  show s.cfg.step (s.dmaIn i) c.aDone = _
  rw [Cfg.step_done_of_not_writes c hw, Cfg.startNext, hen]
  rfl

theorem dmaIn_of_start {cfg : RunConfig} (hr : s.run = .start cfg) (hg : i.go = true) :
    (s.dmaIn i).regWrEn = true ∧ (s.dmaIn i).regWrAddr = 0 ∧ (s.dmaIn i).regWrData = 1 := by
  simp [dmaIn, access, hg, hr, Run.access, aStart]

theorem startWrite_of_start {cfg : RunConfig} (hr : s.run = .start cfg) (hg : i.go = true) :
    s.startWrite i = true := by
  obtain ⟨hen, ha, hd⟩ := dmaIn_of_start hr hg
  rw [startWrite, Cfg.startNext, hen, ha, hd]
  decide

/-- The write of `START` clears the `DONE` registers. -/
theorem step_done_of_start {cfg : RunConfig} (hr : s.run = .start cfg) (hg : i.go = true)
    (c : Channel) : (step sa s i).cfg c.aDone = 0 := by
  have hw : ¬ Cfg.writes (s.dmaIn i) c.aDone := by
    intro hw
    rw [Cfg.writes, (dmaIn_of_start hr hg).2.1] at hw
    exact c.aDone_ne_aStart hw.2.symm
  show s.cfg.step (s.dmaIn i) c.aDone = 0
  rw [Cfg.step_done_of_not_writes c hw]
  exact if_pos (startWrite_of_start hr hg)

/-- A call begins to poll by writing `START`. -/
theorem polling_step (h : (step sa s i).run.polling = true) (h0 : s.run.polling = false) :
    i.go = true ∧ ∃ cfg, s.run = .start cfg := by
  have hprog : ∀ cfg l, (Run.programFrom cfg l).polling = false := by
    intro cfg l
    cases l <;> rfl
  change (runNext sa s i).1.polling = true at h
  cases hr : s.run with
  | idle =>
    rw [runNext, hr] at h
    cases hc : i.call with
    | none => rw [hc] at h; cases h
    | some cfg =>
      rw [hc] at h
      dsimp only at h
      rw [Run.enter] at h
      cases hck : saCheckRunSize sa cfg with
      | error e => rw [hck] at h; cases h
      | ok x => rw [hck] at h; exact absurd h (by rw [hprog]; decide)
  | program cfg reg value todo =>
    cases hg : i.go with
    | false => rw [runNext, hr, hg] at h; cases h
    | true =>
      rw [runNext, hr, hg] at h
      exact absurd h (by simp [Run.next, hprog])
  | start cfg =>
    cases hg : i.go with
    | false => rw [runNext, hr, hg] at h; cases h
    | true => exact ⟨rfl, cfg, rfl⟩
  | poll left status c todo => rw [hr] at h0; cases h0

end Hw

/-! ### Completions of a call -/

section Run

variable (sa : SaDev) (u : ℕ → HwIn)

/-- After cycle `w` and before cycle `n` the engine of channel `c` has accepted
a descriptor and reported that descriptor without an error. -/
def Completed (c : Channel) (w n : ℕ) : Prop :=
  ∃ a b, w < a ∧ a < b ∧ b < n ∧ ((hw sa).state u a).accepts (u a) c = true ∧
    ((hw sa).state u b).completes (u b) c = true ∧
    ∀ m, a < m → m < b → ((hw sa).state u m).reports (u m) c = false

/-- In cycle `n` a call polls that has written `START` in cycle `w`. -/
structure Waiting (w n : ℕ) : Prop where
  lt : w < n
  written : ((hw sa).state u w).startWrite (u w) = true
  polling : ∀ m, w < m → m ≤ n → ((hw sa).state u m).run.polling = true
  pending : ∀ c, ((hw sa).state u n).busy c = true → ∃ a, w < a ∧ a < n ∧
    ((hw sa).state u a).accepts (u a) c = true ∧
    ∀ m, a < m → m < n → ((hw sa).state u m).reports (u m) c = false
  done : ∀ c, ((hw sa).state u n).cfg c.aDone ≠ 0 → Completed sa u c w n
  seen : ∀ left status c todo, ((hw sa).state u n).run = .poll left status c todo →
    status ≠ 0 → ∀ c', c' ∉ c :: todo → Completed sa u c' w n

variable {sa u} {w n : ℕ}

theorem Completed.mono {c : Channel} (h : Completed sa u c w n) {n' : ℕ} (hn : n ≤ n') :
    Completed sa u c w n' := by
  obtain ⟨a, b, hwa, hab, hbn, hrest⟩ := h
  exact ⟨a, b, hwa, hab, Nat.lt_of_lt_of_le hbn hn, hrest⟩

theorem not_mem_first {c : Channel} (h : c ∉ [Channel.mm2s0, .mm2s1, .mm2s2, .s2mm]) : False := by
  cases c <;> simp at h

/-- What a poll that goes on has read. -/
theorem seen_next {s : Hw} {i : HwIn} {left left' : ℕ} {status status' : BitVec 32} {c c' : Channel}
    {todo todo' : List Channel} (hr : s.run = .poll left status c todo) (hg : i.go = true)
    (hr' : (Hw.step sa s i).run = .poll left' status' c' todo') (hs : status' ≠ 0) {d : Channel}
    (hd : d ∉ c' :: todo') : s.cfg c.aDone ≠ 0 ∧ status ≠ 0 ∧ (d = c ∨ d ∉ c :: todo) := by
  have hrd : s.rdData = s.cfg c.aDone := by
    rw [Hw.rdData, hr]
    rfl
  change (Hw.runNext sa s i).1 = _ at hr'
  rw [Hw.runNext, hr] at hr'
  simp only [hg, if_true] at hr'
  cases todo with
  | cons c₂ todo₂ =>
    simp only [Run.next, Run.poll.injEq] at hr'
    obtain ⟨_, rfl, rfl, rfl⟩ := hr'
    rw [hrd] at hs
    refine ⟨?_, ?_, ?_⟩
    · intro h0
      rw [h0] at hs
      simp at hs
    · intro h0
      rw [h0] at hs
      simp at hs
    · by_cases hdc : d = c
      · exact Or.inl hdc
      · exact Or.inr (by simp only [List.mem_cons] at hd ⊢; tauto)
  | nil =>
    exfalso
    rw [Run.next] at hr'
    by_cases h0 : status &&& s.rdData ≠ 0
    · rw [if_pos h0] at hr'
      cases hr'
    · rw [if_neg h0] at hr'
      cases left with
      | zero => cases hr'
      | succ left =>
        simp only [Run.waitDone, Run.poll.injEq] at hr'
        obtain ⟨_, _, rfl, rfl⟩ := hr'
        exact not_mem_first hd

namespace Waiting

/-- The call goes on polling. -/
theorem succ (h : Waiting sa u w n) (hp : ((hw sa).state u (n + 1)).run.polling = true) :
    Waiting sa u w (n + 1) := by
  have hpn := h.polling n h.lt (Nat.le_refl n)
  have hdone : ∀ c, ((hw sa).state u n).cfg c.aDone ≠ 0 → Completed sa u c w (n + 1) :=
    fun c hc => (h.done c hc).mono (Nat.le_succ n)
  refine ⟨Nat.lt_succ_of_lt h.lt, h.written, ?_, ?_, ?_, ?_⟩
  · intro m hwm hmn
    rcases Nat.eq_or_lt_of_le hmn with rfl | hlt
    · exact hp
    · exact h.polling m hwm (Nat.le_of_lt_succ hlt)
  · intro c hb
    have hb' : (((hw sa).state u n).accepts (u n) c
        || (((hw sa).state u n).busy c && !((hw sa).state u n).reports (u n) c)) = true := hb
    rcases Bool.or_eq_true_iff.mp hb' with hacc | hold
    · exact ⟨n, h.lt, Nat.lt_succ_self n, hacc, fun m hnm hmn => by omega⟩
    · rw [Bool.and_eq_true, Bool.not_eq_true'] at hold
      obtain ⟨a, hwa, han, hacc, hquiet⟩ := h.pending c hold.1
      refine ⟨a, hwa, Nat.lt_succ_of_lt han, hacc, ?_⟩
      intro m ham hmn
      rcases Nat.eq_or_lt_of_le (Nat.le_of_lt_succ hmn) with rfl | hlt
      · exact hold.2
      · exact hquiet m ham hlt
  · intro c hc
    rw [Machine.state_succ] at hc
    change (Hw.step sa ((hw sa).state u n) (u n)).cfg c.aDone ≠ 0 at hc
    rw [Hw.step_done_of_polling hpn] at hc
    by_cases hcomp : ((hw sa).state u n).completes (u n) c = true
    · have hrep := Hw.reports_of_completes hcomp
      rw [Hw.reports, Bool.and_eq_true] at hrep
      obtain ⟨a, hwa, han, hacc, hquiet⟩ := h.pending c hrep.1
      exact ⟨a, n, hwa, han, Nat.lt_succ_self n, hacc, hcomp, hquiet⟩
    · rw [if_neg hcomp] at hc
      exact hdone c hc
  · intro left' status' c' todo' hr' hs d hd
    cases hr : ((hw sa).state u n).run with
    | poll left status c todo =>
      cases hg : (u n).go with
      | false =>
        have hsame : ((hw sa).state u (n + 1)).run = ((hw sa).state u n).run := by
          show (Hw.runNext sa ((hw sa).state u n) (u n)).1 = _
          rw [Hw.runNext, hr, hg]
          rfl
        rw [hsame] at hr'
        exact (h.seen _ _ _ _ hr' hs d hd).mono (Nat.le_succ n)
      | true =>
        obtain ⟨hdn, hst, rfl | hmem⟩ := seen_next hr hg hr' hs hd
        · exact hdone d hdn
        · exact (h.seen _ _ _ _ hr hst d hmem).mono (Nat.le_succ n)
    | _ => rw [hr] at hpn; cases hpn

/-- The call has just written `START`. -/
theorem init (hclean : CleanStart ((hw sa).state u n) (u n)) {cfg : RunConfig}
    (hr : ((hw sa).state u n).run = .start cfg) (hg : (u n).go = true)
    (hp : ((hw sa).state u (n + 1)).run.polling = true) : Waiting sa u n (n + 1) := by
  have hw := Hw.startWrite_of_start hr hg
  obtain ⟨hstart, hidle⟩ := hclean hw
  refine ⟨Nat.lt_succ_self n, hw, ?_, ?_, ?_, ?_⟩
  · intro m hnm hmn
    obtain rfl : m = n + 1 := by omega
    exact hp
  · intro c hb
    have hb' : (((AxisSystolic.hw sa).state u n).accepts (u n) c
        || (((AxisSystolic.hw sa).state u n).busy c
          && !((AxisSystolic.hw sa).state u n).reports (u n) c)) = true := hb
    rw [hidle c, Bool.false_and, Bool.or_false] at hb'
    rw [Hw.start_of_accepts hb'] at hstart
    cases hstart
  · intro c hc
    exact absurd (Hw.step_done_of_start hr hg c) hc
  · intro left status c todo hr' _ d hd
    exfalso
    change (Hw.runNext sa ((AxisSystolic.hw sa).state u n) (u n)).1 = _ at hr'
    rw [Hw.runNext, hr] at hr'
    simp only [hg, if_true, Run.next] at hr'
    generalize (if cfg.timeoutUs = 0 then 1000000 else cfg.timeoutUs.toNat) = m at hr'
    cases m with
    | zero => cases hr'
    | succ m =>
      simp only [Run.waitDone, Run.poll.injEq] at hr'
      obtain ⟨_, _, rfl, rfl⟩ := hr'
      exact not_mem_first hd

end Waiting

/-- A call that polls has written `START` before, and knows its completions. -/
theorem waiting_run (hr : (hw sa).Obeys CleanStart u n)
    (hp : ((hw sa).state u n).run.polling = true) : ∃ w, Waiting sa u w n := by
  induction n with
  | zero => cases hp
  | succ n ih =>
    obtain ⟨hr', hclean⟩ := Machine.obeys_succ.mp hr
    cases hpn : ((hw sa).state u n).run.polling with
    | true =>
      obtain ⟨w, hw⟩ := ih hr' hpn
      exact ⟨w, hw.succ hp⟩
    | false =>
      obtain ⟨hg, cfg, hst⟩ := Hw.polling_step hp hpn
      exact ⟨n, Waiting.init hclean hst hg hp⟩

/-- **A call that returns `0` has written `START`, and since then every engine has
accepted a descriptor and reported it without an error**, in the runs in which
`START` is written only when no earlier job is left. -/
theorem returned_completed (hr : (hw sa).Obeys CleanStart u n)
    (hret : ((hw sa).state u n).returned sa (u n) = some (.ok ())) :
    ∃ w < n, ((hw sa).state u w).startWrite (u w) = true ∧
      (∀ m, w < m → m ≤ n → ((hw sa).state u m).run.polling = true) ∧
      ∀ c, Completed sa u c w n := by
  change (Hw.runNext sa ((hw sa).state u n) (u n)).2 = _ at hret
  cases hrun : ((hw sa).state u n).run with
  | idle =>
    exfalso
    rw [Hw.runNext, hrun] at hret
    cases hc : (u n).call with
    | none => rw [hc] at hret; cases hret
    | some cfg => rw [hc] at hret; exact Run.enter_ne_ok sa cfg hret
  | _ =>
    rw [Hw.runNext, hrun] at hret
    cases hg : (u n).go with
    | false => simp [hg] at hret
    | true =>
      simp only [hg, if_true] at hret
      obtain ⟨left, status, c, hpoll, hne⟩ := Run.next_eq_ok hret
      have hpn : ((hw sa).state u n).run.polling = true := by
        rw [hrun, hpoll]
        rfl
      obtain ⟨w, hw⟩ := waiting_run hr hpn
      refine ⟨w, hw.lt, hw.written, hw.polling, ?_⟩
      have hrd : ((AxisSystolic.hw sa).state u n).rdData
          = ((AxisSystolic.hw sa).state u n).cfg c.aDone := by
        rw [Hw.rdData, hrun, hpoll]
        rfl
      rw [hrd] at hne
      intro d
      by_cases hdc : d = c
      · subst hdc
        refine hw.done d ?_
        intro h0
        rw [h0] at hne
        simp at hne
      · refine hw.seen left status c [] (by rw [hrun, hpoll]) ?_ d (by simpa using hdc)
        intro h0
        rw [h0] at hne
        simp at hne

end Run

/-- Four buffers of a page. -/
def pageBuffers : SaDev := ⟨fun _ => ⟨0, 4096⟩⟩

/-- A call that polls once and times out, and a second call.  The engines report
the first job, all at once, after the second `START`. -/
def lateReports (t : ℕ) : HwIn where
  call := if t = 0 ∨ t = 14 then some ⟨fun _ => 16, 1⟩ else none
  go := t != 24
  ready := fun _ => true
  finish := fun _ => t == 24
  error := fun _ => 0

/-- The second call returns `0` on the completions of the first job. -/
theorem lateReports_not_completed :
    ((hw pageBuffers).state lateReports 13).returned pageBuffers (lateReports 13)
      = some (.error .etimedout) ∧
    ((hw pageBuffers).state lateReports 28).returned pageBuffers (lateReports 28)
      = some (.ok ()) ∧
    ¬ ∃ w < 28, ((hw pageBuffers).state lateReports w).startWrite (lateReports w) = true ∧
      (∀ m, w < m → m ≤ 28 → ((hw pageBuffers).state lateReports m).run.polling = true) ∧
      ∀ c, Completed pageBuffers lateReports c w 28 := by
  refine ⟨by decide, by decide +kernel, ?_⟩
  rintro ⟨w, _, _, hpoll, hall⟩
  obtain ⟨a, b, hwa, hab, hb, _, hcomp, _⟩ := hall .s2mm
  have hfirst : ((hw pageBuffers).state lateReports 23).run.polling = false := by
    decide +kernel
  have hlater : ∀ k < 3, ((hw pageBuffers).state lateReports (25 + k)).completes
      (lateReports (25 + k)) .s2mm = false := by decide +kernel
  have hw : 23 ≤ w := by
    by_contra hlt
    rw [hpoll 23 (by omega) (by omega)] at hfirst
    cases hfirst
  obtain ⟨k, rfl⟩ : ∃ k, b = 25 + k := ⟨b - 25, by omega⟩
  rw [hlater k (by omega)] at hcomp
  cases hcomp

/-- A call whose job is reported before it polls. -/
def promptReports (t : ℕ) : HwIn where
  call := if t = 0 then some ⟨fun _ => 16, 1⟩ else none
  go := t != 10 && t != 11
  ready := fun _ => true
  finish := fun _ => t == 11
  error := fun _ => 0

theorem promptReports_completed :
    ∃ w < 15, ((hw pageBuffers).state promptReports w).startWrite (promptReports w) = true ∧
      (∀ m, w < m → m ≤ 15 → ((hw pageBuffers).state promptReports m).run.polling = true) ∧
      ∀ c, Completed pageBuffers promptReports c w 15 :=
  returned_completed (by decide) (by decide)

end AxisSystolic
