import AxisSystolic.Dma.Ioctl
import AxisSystolic.Dma.Status

/-!
# What a call writes

`SA_IOC_RUN` writes the address and the length of each channel, the address
first, and then `START`.  `written` is what a call has written so far and relies
on; `Orderly` calls are those that come from a command, without
`SA_IOC_WRITE_REG`.
-/

namespace AxisSystolic

/-! ### The list of writes -/

namespace SaDev

/-- The address that is written for a channel. -/
def dmaAddr (sa : SaDev) (c : Channel) : BitVec 32 := (sa.buf c).dma.setWidth 32

end SaDev

section Program

variable {sa : SaDev} {cfg : RunConfig} {done todo : List (ℕ × BitVec 32)} {reg : ℕ}
  {value : BitVec 32}

theorem mem_program_iff {w : ℕ × BitVec 32} : w ∈ saProgramDmaRegisters sa cfg ↔
    ∃ c, w = (c.aAddr, sa.dmaAddr c) ∨ w = (c.aBytes, cfg.bytes c) := by
  refine ⟨?_, ?_⟩
  · intro h
    simp only [saProgramDmaRegisters, List.mem_cons, List.not_mem_nil, or_false] at h
    rcases h with h | h | h | h | h | h | h | h
    · exact ⟨.mm2s0, Or.inl h⟩
    · exact ⟨.mm2s0, Or.inr h⟩
    · exact ⟨.mm2s1, Or.inl h⟩
    · exact ⟨.mm2s1, Or.inr h⟩
    · exact ⟨.mm2s2, Or.inl h⟩
    · exact ⟨.mm2s2, Or.inr h⟩
    · exact ⟨.s2mm, Or.inl h⟩
    · exact ⟨.s2mm, Or.inr h⟩
  · rintro ⟨c, rfl | rfl⟩ <;> cases c <;> simp [saProgramDmaRegisters, SaDev.dmaAddr]

/-- No register is written twice. -/
theorem nodup_program (sa : SaDev) (cfg : RunConfig) :
    ((saProgramDmaRegisters sa cfg).map Prod.fst).Nodup := by
  show [2, 3, 6, 7, 10, 11, 14, 15].Nodup
  decide

/-- The register of a write that is still to come has not been written. -/
theorem ne_of_mem_done (h : done ++ (reg, value) :: todo = saProgramDmaRegisters sa cfg)
    {w : ℕ × BitVec 32} (hw : w ∈ done) : w.1 ≠ reg := by
  have hnodup := nodup_program sa cfg
  rw [← h, List.map_append, List.nodup_append] at hnodup
  exact hnodup.2.2 w.1 (List.mem_map_of_mem hw) reg List.mem_cons_self

/-- What has been written before a register. -/
theorem done_eq_takeWhile (h : done ++ (reg, value) :: todo = saProgramDmaRegisters sa cfg) :
    done = (saProgramDmaRegisters sa cfg).takeWhile fun w => w.1 != reg := by
  have hne : ∀ w ∈ done, (w.1 != reg) = true := fun w hw => bne_iff_ne.mpr (ne_of_mem_done h hw)
  rw [← h, List.takeWhile_append_of_pos hne, List.takeWhile_cons_of_neg (by simp),
    List.append_nil]

/-- The address of a channel is written before its length. -/
theorem addr_mem_of_bytes {c : Channel}
    (h : done ++ (c.aBytes, value) :: todo = saProgramDmaRegisters sa cfg) :
    (c.aAddr, sa.dmaAddr c) ∈ done := by
  rw [done_eq_takeWhile h]
  cases c <;>
    simp [saProgramDmaRegisters, SaDev.dmaAddr, Channel.aAddr, Channel.aBytes, List.takeWhile]

theorem toNat_bytes_le {c : Channel} (h : saCheckRunSize sa cfg = .ok ()) :
    (cfg.bytes c).toNat ≤ (sa.buf c).size.toNat := by
  unfold saCheckRunSize at h
  split at h
  · cases h
  split at h
  · cases h
  split at h
  · cases h
  split at h
  · cases h
  cases c <;> omega

end Program

namespace Run

/-- What a call has written, until it writes `START`. -/
def written (sa : SaDev) : Run → List (ℕ × BitVec 32)
  | program cfg reg _ _ => (saProgramDmaRegisters sa cfg).takeWhile fun w => w.1 != reg
  | start cfg => saProgramDmaRegisters sa cfg
  | _ => []

/-- A call that has come from `enter`. -/
inductive Orderly (sa : SaDev) : Run → Prop
  | idle : Orderly sa .idle
  | program {cfg : RunConfig} {done todo : List (ℕ × BitVec 32)} {reg : ℕ} {value : BitVec 32}
      (hsize : saCheckRunSize sa cfg = .ok ())
      (hlist : done ++ (reg, value) :: todo = saProgramDmaRegisters sa cfg) :
      Orderly sa (.program cfg reg value todo)
  | start {cfg : RunConfig} (hsize : saCheckRunSize sa cfg = .ok ()) : Orderly sa (.start cfg)
  | poll {left : ℕ} {status : BitVec 32} {c : Channel} {todo : List Channel} :
      Orderly sa (.poll left status c todo)

namespace Orderly

variable {sa : SaDev} {r : Run} {reg : ℕ} {value : BitVec 32}

theorem waitDone (n : ℕ) : Orderly sa (Run.waitDone n).1 := by
  cases n with
  | zero => exact .idle
  | succ n => exact .poll

theorem enter (cfg : RunConfig) : Orderly sa (Run.enter sa cfg).1 := by
  unfold Run.enter
  cases h : saCheckRunSize sa cfg with
  | error e => exact .idle
  | ok ret => exact @program sa cfg [] _ _ _ h rfl

theorem next (h : Orderly sa r) (rdData : BitVec 32) : Orderly sa (r.next rdData).1 := by
  cases h with
  | idle => exact .idle
  | @program cfg done todo reg value hsize hlist =>
    cases todo with
    | nil => exact .start hsize
    | cons w todo =>
      refine @program sa cfg (done ++ [(reg, value)]) todo _ _ hsize ?_
      rw [← hlist, List.append_assoc]
      rfl
  | start hsize => exact waitDone _
  | @poll left status c todo =>
    cases todo with
    | nil =>
      rw [Run.next]
      by_cases hs : status &&& rdData ≠ 0
      · rw [if_pos hs]
        exact .idle
      · rw [if_neg hs]
        exact waitDone left
    | cons c' todo => exact .poll

end Orderly

theorem written_waitDone (sa : SaDev) (n : ℕ) : (waitDone n).1.written sa = [] := by
  cases n <;> rfl

theorem written_enter (sa : SaDev) (cfg : RunConfig) : (enter sa cfg).1.written sa = [] := by
  unfold enter
  cases saCheckRunSize sa cfg <;> rfl

namespace Orderly

variable {sa : SaDev} {r : Run} {reg : ℕ} {value : BitVec 32} {w : ℕ × BitVec 32}

/-- An access adds its write to what has been written. -/
theorem mem_written_next (h : Orderly sa r) {rdData : BitVec 32}
    (hw : w ∈ (r.next rdData).1.written sa) :
    w ∈ r.written sa ∨ r.access = some (.write w.1 w.2) := by
  cases h with
  | idle => cases hw
  | @program cfg done todo reg value hsize hlist =>
    have hmem : w ∈ done ++ [(reg, value)] := by
      cases todo with
      | nil => exact hlist ▸ hw
      | cons w' todo =>
        have hlist' : (done ++ [(reg, value)]) ++ (w'.1, w'.2) :: todo
            = saProgramDmaRegisters sa cfg := by
          rw [← hlist, List.append_assoc]
          rfl
        rw [done_eq_takeWhile hlist']
        exact hw
    rw [List.mem_append, List.mem_singleton, done_eq_takeWhile hlist] at hmem
    rcases hmem with hmem | rfl
    · exact Or.inl hmem
    · exact Or.inr rfl
  | start hsize =>
    rw [Run.next, written_waitDone] at hw
    cases hw
  | @poll left status c todo =>
    cases todo with
    | nil =>
      rw [Run.next] at hw
      by_cases hs : status &&& rdData ≠ 0
      · rw [if_pos hs] at hw
        cases hw
      · rw [if_neg hs, written_waitDone] at hw
        cases hw
    | cons c' todo => cases hw

/-- It writes no register twice. -/
theorem ne_of_mem_written (h : Orderly sa r) (hacc : r.access = some (.write reg value))
    (hw : w ∈ r.written sa) : w.1 ≠ reg := by
  cases h with
  | idle => cases hw
  | program hsize hlist =>
    cases hacc
    rw [written, ← done_eq_takeWhile hlist] at hw
    exact ne_of_mem_done hlist hw
  | start hsize =>
    cases hacc
    obtain ⟨c, rfl | rfl⟩ := mem_program_iff.mp hw
    · exact (Cfg.softwareOnly_aAddr c).1
    · exact (Cfg.softwareOnly_aBytes c).1
  | poll => cases hw

/-- What a call writes. -/
theorem write_cases (h : Orderly sa r) (hacc : r.access = some (.write reg value)) :
    reg = aStart ∨ ∃ c : Channel, (reg = c.aAddr ∧ value = sa.dmaAddr c) ∨
      (reg = c.aBytes ∧ value.toNat ≤ (sa.buf c).size.toNat ∧
        (c.aAddr, sa.dmaAddr c) ∈ r.written sa) := by
  cases h with
  | idle => cases hacc
  | @program cfg done todo reg' value' hsize hlist =>
    cases hacc
    have hmem : (reg, value) ∈ saProgramDmaRegisters sa cfg := by
      rw [← hlist]
      exact List.mem_append_right _ List.mem_cons_self
    obtain ⟨c, heq | heq⟩ := mem_program_iff.mp hmem
    · rw [Prod.mk.injEq] at heq
      exact Or.inr ⟨c, Or.inl heq⟩
    · rw [Prod.mk.injEq] at heq
      obtain ⟨rfl, rfl⟩ := heq
      refine Or.inr ⟨c, Or.inr ⟨rfl, toNat_bytes_le hsize, ?_⟩⟩
      show _ ∈ List.takeWhile _ _
      rw [← done_eq_takeWhile hlist]
      exact addr_mem_of_bytes hlist
  | start hsize =>
    cases hacc
    exact Or.inl rfl
  | poll => cases hacc

end Orderly

end Run

/-- A poll that does not end the call is followed by one. -/
theorem Run.polling_next {r r' : Run} {rdData : BitVec 32} (h : r.polling = true)
    (hn : r.next rdData = (r', none)) : r'.polling = true := by
  cases r with
  | idle => cases h
  | program cfg reg value todo => cases h
  | start cfg => cases h
  | poll left status c todo =>
    cases todo with
    | nil =>
      rw [Run.next] at hn
      by_cases hs : status &&& rdData ≠ 0
      · rw [if_pos hs] at hn
        cases hn
      · rw [if_neg hs] at hn
        cases left with
        | zero => cases hn
        | succ n =>
          cases hn
          rfl
    | cons c' todo =>
      cases hn
      rfl

/-! ### All commands -/

namespace Call

/-- What a call has written, until it writes `START`. -/
def written (sa : SaDev) : Call → List (ℕ × BitVec 32)
  | run r => r.written sa
  | _ => []

theorem form_of_mem_written {sa : SaDev} {call : Call} {w : ℕ × BitVec 32}
    (h : w ∈ call.written sa) : ∃ cfg : RunConfig, w ∈ saProgramDmaRegisters sa cfg := by
  cases call with
  | run r =>
    cases r with
    | idle => cases h
    | program cfg reg value todo =>
      refine ⟨cfg, (List.takeWhile_prefix fun w => w.1 != reg).subset ?_⟩
      exact h
    | start cfg => exact ⟨cfg, h⟩
    | poll left status c todo => cases h
  | _ => cases h

/-- A call that has come from a command. -/
inductive Orderly (sa : SaDev) : Call → Prop
  | idle : Orderly sa .idle
  | readReg {reg : BitVec 32} : Orderly sa (.readReg reg)
  | start : Orderly sa .start
  | wait {r : Run} (h : r.polling = true) : Orderly sa (.wait r)
  | status {acc : BitVec 32} {c : Channel} {todo : List Channel} : Orderly sa (.status acc c todo)
  | run {r : Run} (h : r.Orderly sa) : Orderly sa (.run r)

theorem written_enter (sa : SaDev) (cmd : Ioctl) : (enter sa cmd).1.written sa = [] := by
  cases cmd with
  | readReg reg =>
    rw [enter]
    split <;> rfl
  | writeReg reg value =>
    rw [enter]
    split <;> rfl
  | start => rfl
  | wait => rfl
  | getDmaInfo => rfl
  | copyToDma xfer => rfl
  | copyFromDma xfer => rfl
  | run cfg =>
    have h := Run.written_enter sa cfg
    rw [enter]
    cases hr : Run.enter sa cfg with
    | mk r ret =>
      rw [hr] at h
      cases ret with
      | none => exact h
      | some ret => rfl

namespace Orderly

variable {sa : SaDev} {call : Call} {reg : ℕ} {value : BitVec 32} {w : ℕ × BitVec 32}

theorem enter {cmd : Ioctl} (h : cmd.isWriteReg = false) : Orderly sa (Call.enter sa cmd).1 := by
  cases cmd with
  | readReg reg =>
    rw [Call.enter]
    split
    · exact .idle
    · exact .readReg
  | writeReg reg value => cases h
  | start => exact .start
  | wait => exact .wait rfl
  | getDmaInfo => exact .idle
  | copyToDma xfer => exact .idle
  | copyFromDma xfer => exact .idle
  | run cfg =>
    have h : Run.Orderly sa (Run.enter sa cfg).1 := Run.Orderly.enter cfg
    rw [Call.enter]
    cases hr : Run.enter sa cfg with
    | mk r ret =>
      rw [hr] at h
      cases ret with
      | none => exact .run h
      | some ret => exact .idle

theorem next (h : Orderly sa call) (rdData : BitVec 32) : Orderly sa (call.next rdData).1 := by
  cases h with
  | idle => exact .idle
  | readReg => exact .idle
  | start => exact .idle
  | @wait r h =>
    rw [Call.next]
    rcases hn : r.next rdData with ⟨r', _ | e | ret⟩
    · exact .wait (Run.polling_next h hn)
    · exact .idle
    · exact .status
  | @status acc c todo =>
    cases todo with
    | nil => exact .idle
    | cons c' todo => exact .status
  | @run r h =>
    have hr := h.next rdData
    rw [Call.next]
    rcases hn : r.next rdData with ⟨r', _ | ret⟩
    · rw [hn] at hr
      exact .run hr
    · exact .idle

theorem access_of_polling {r : Run} (h : r.polling = true) : ∃ c : Channel,
    r.access = some (.read c.aDone) := by
  cases r with
  | idle => cases h
  | program cfg reg value todo => cases h
  | start cfg => cases h
  | poll left status c todo => exact ⟨c, rfl⟩

/-- Only `SA_IOC_RUN` writes more than `START`. -/
theorem write_cases (h : Orderly sa call) (hacc : call.access = some (.write reg value)) :
    reg = aStart ∨ ∃ c : Channel, (reg = c.aAddr ∧ value = sa.dmaAddr c) ∨
      (reg = c.aBytes ∧ value.toNat ≤ (sa.buf c).size.toNat ∧
        (c.aAddr, sa.dmaAddr c) ∈ call.written sa) := by
  cases h with
  | idle => cases hacc
  | readReg => cases hacc
  | start =>
    cases hacc
    exact Or.inl rfl
  | wait h =>
    obtain ⟨c, hr⟩ := access_of_polling h
    rw [access, hr] at hacc
    cases hacc
  | status => cases hacc
  | run h => exact h.write_cases hacc

theorem ne_of_mem_written (h : Orderly sa call) (hacc : call.access = some (.write reg value))
    (hw : w ∈ call.written sa) : w.1 ≠ reg := by
  cases h with
  | run h => exact h.ne_of_mem_written hacc hw
  | _ => cases hw

theorem mem_written_next (h : Orderly sa call) {rdData : BitVec 32}
    (hw : w ∈ (call.next rdData).1.written sa) :
    w ∈ call.written sa ∨ call.access = some (.write w.1 w.2) := by
  cases h with
  | idle => cases hw
  | readReg => cases hw
  | start => cases hw
  | @wait r h =>
    rw [Call.next] at hw
    rcases hn : r.next rdData with ⟨r', _ | e | ret⟩ <;> rw [hn] at hw <;> cases hw
  | @status acc c todo => cases todo <;> cases hw
  | @run r h =>
    rw [Call.next] at hw
    rcases hn : r.next rdData with ⟨r', _ | ret⟩
    · rw [hn] at hw
      have hw' : w ∈ (r.next rdData).1.written sa := by
        rw [hn]
        exact hw
      exact h.mem_written_next hw'
    · rw [hn] at hw
      cases hw

end Orderly

end Call

end AxisSystolic
