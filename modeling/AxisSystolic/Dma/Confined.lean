import AxisSystolic.Dma.Clients

/-!
# The engines stay inside the buffers

Whatever the clients do without `SA_IOC_WRITE_REG`, a descriptor is empty or
lies in the buffer of its channel, at every single register access.  The length
of a channel is written after its address, and the address is the same for every
client; a length is checked before its call writes anything.
-/

namespace AxisSystolic

open Sync

/-- A device after `sa_dma_init`: all buffers have `SA_DMA_BUF_SIZE` bytes, and
the mask keeps them below 4 GiB. -/
structure ProbedDev extends SaDev where
  size_eq : ∀ c, (buf c).size = 4096
  below : ∀ c, (buf c).dma.toNat + (buf c).size.toNat ≤ 2 ^ 32

/-- The fields of a descriptor. -/
def descAddr (d : BitVec (dma32.axiLenWidth + dma32.addrWidth)) : ℕ := d.toNat % 2 ^ 32
def descLen (d : BitVec (dma32.axiLenWidth + dma32.addrWidth)) : ℕ := d.toNat / 2 ^ 32

/-- The bytes of a descriptor lie in a buffer, or there are none. -/
def Within (buf : DmaBuffer) (d : BitVec (dma32.axiLenWidth + dma32.addrWidth)) : Prop :=
  descLen d = 0 ∨
    buf.dma.toNat ≤ descAddr d ∧ descAddr d + descLen d ≤ buf.dma.toNat + buf.size.toNat

theorem toNat_desc (s : Cfg dma32) (c : Channel) :
    (s.desc c).toNat = (s c.aBytes).toNat * 2 ^ 32 + (s c.aAddr).toNat := by
  have hlt : (s c.aAddr).toNat < 2 ^ 32 := (s c.aAddr).isLt
  unfold Cfg.desc Cfg.len Cfg.addr
  rw [BitVec.setWidth_eq, BitVec.setWidth_eq, BitVec.toNat_append,
    ← Nat.shiftLeft_add_eq_or_of_lt hlt, Nat.shiftLeft_eq]

theorem descAddr_desc (s : Cfg dma32) (c : Channel) :
    descAddr (s.desc c) = (s c.aAddr).toNat := by
  have hlt : (s c.aAddr).toNat < 2 ^ 32 := (s c.aAddr).isLt
  unfold descAddr
  rw [toNat_desc]
  omega

theorem descLen_desc (s : Cfg dma32) (c : Channel) :
    descLen (s.desc c) = (s c.aBytes).toNat := by
  have hlt : (s c.aAddr).toNat < 2 ^ 32 := (s c.aAddr).isLt
  unfold descLen
  rw [toNat_desc]
  omega

def IsAddr (a : ℕ) : Prop := ∃ c : Channel, a = c.aAddr

theorem IsAddr.softwareOnly {a : ℕ} (h : IsAddr a) : Cfg.SoftwareOnly a := by
  obtain ⟨c, rfl⟩ := h
  exact Cfg.softwareOnly_aAddr c

namespace Sys

variable {ι : Type*} {sa : SaDev} {s : Sys ι} {i : SysIn ι}

/-- All clients write the same addresses. -/
theorem agreed_isAddr (h : s.Orderly sa) : s.Agreed sa IsAddr i := by
  rintro j reg value _ hacc ⟨c, rfl⟩ k _ w hw hreg
  have hval : value = sa.dmaAddr c := by
    rcases (h j).write_cases hacc with hstart | ⟨c', ⟨haddr, hval⟩ | ⟨hbytes, _⟩⟩
    · exact absurd hstart (Cfg.softwareOnly_aAddr c).1
    · rw [hval, Channel.aAddr_inj haddr]
    · exact absurd hbytes (Channel.aAddr_ne_aBytes c c')
  obtain ⟨cfg, hmem⟩ := Call.form_of_mem_written hw
  obtain ⟨c', rfl | rfl⟩ := mem_program_iff.mp hmem
  · rw [hval, Channel.aAddr_inj hreg]
  · exact absurd hreg.symm (Channel.aAddr_ne_aBytes c c')

/-- No channel has a length without its address. -/
def Guarded (sa : SaDev) (s : Sys ι) : Prop :=
  ∀ c : Channel, s.cfg c.aBytes = 0 ∨
    s.cfg c.aAddr = sa.dmaAddr c ∧ (s.cfg c.aBytes).toNat ≤ (sa.buf c).size.toNat

variable [DecidableEq ι]

theorem Guarded.step (h : s.Guarded sa) (ho : s.Orderly sa) (hin : s.Intact sa IsAddr) :
    (s.step sa i).Guarded sa := by
  intro c
  show s.cfg.step (s.dmaIn i) c.aBytes = 0 ∨ s.cfg.step (s.dmaIn i) c.aAddr = sa.dmaAddr c ∧
    (s.cfg.step (s.dmaIn i) c.aBytes).toNat ≤ (sa.buf c).size.toNat
  by_cases hbytes : ∃ value, s.access i = some (.write c.aBytes value)
  · -- the length is written, after the address and within the buffer
    obtain ⟨value, hacc⟩ := hbytes
    have hno : ¬ ∃ value, s.access i = some (.write c.aAddr value) := by
      rintro ⟨v, hv⟩
      rw [hacc] at hv
      cases c <;> cases hv
    obtain ⟨j, _, hj⟩ := exists_of_access hacc
    rcases (ho j).write_cases hj with hstart | ⟨c', ⟨haddr, _⟩ | ⟨hc, hle, hmem⟩⟩
    · exact absurd hstart (Cfg.softwareOnly_aBytes c).1
    · exact absurd haddr.symm (Channel.aAddr_ne_aBytes c' c)
    · obtain rfl := Channel.aBytes_inj hc
      right
      rw [step_of_write hacc (ho.reg_lt hacc),
        ho.step_of_not_write (Cfg.softwareOnly_aAddr c) hno]
      exact ⟨hin j _ hmem ⟨c, rfl⟩, hle⟩
  · rw [ho.step_of_not_write (Cfg.softwareOnly_aBytes c) hbytes]
    rcases h c with hzero | ⟨haddr, hle⟩
    · exact Or.inl hzero
    · right
      refine ⟨?_, hle⟩
      by_cases hwr : ∃ value, s.access i = some (.write c.aAddr value)
      · -- the address is written again, and is the same
        obtain ⟨value, hacc⟩ := hwr
        obtain ⟨j, _, hj⟩ := exists_of_access hacc
        rw [step_of_write hacc (ho.reg_lt hacc)]
        rcases (ho j).write_cases hj with hstart | ⟨c', ⟨hc, hval⟩ | ⟨hc, _⟩⟩
        · exact absurd hstart (Cfg.softwareOnly_aAddr c).1
        · rw [hval, Channel.aAddr_inj hc]
        · exact absurd hc (Channel.aAddr_ne_aBytes c c')
      · rw [ho.step_of_not_write (Cfg.softwareOnly_aAddr c) hwr]
        exact haddr

end Sys

/-! ### Runs -/

section Runs

variable {ι : Type*} [DecidableEq ι] {sa : SaDev} {u : ℕ → SysIn ι}

theorem guarded_run (hu : ∀ n, NoWriteReg (u n)) (t : ℕ) :
    ((clients ι sa).state u t).Intact sa IsAddr ∧ ((clients ι sa).state u t).Guarded sa := by
  induction t with
  | zero => exact ⟨Sys.intact_reset sa IsAddr, fun _ => Or.inl rfl⟩
  | succ t ih =>
    have ho : ((clients ι sa).state u t).Orderly sa := orderly_run hu t
    refine ⟨?_, ?_⟩
    · exact ih.1.step ho (fun _ ha => ha.softwareOnly) (Sys.agreed_isAddr ho)
    · exact ih.2.step ho ih.1

end Runs

/-- **Every descriptor the controller presents is empty or lies inside the
buffer of its channel.** -/
theorem descriptors_confined (ι : Type*) [DecidableEq ι] (sa : ProbedDev) (u : ℕ → SysIn ι)
    (hu : ∀ n, NoWriteReg (u n)) (t : ℕ) (c : Channel) :
    Within (sa.buf c) (((clients ι sa.toSaDev).state u t).cfg.desc c) := by
  have hbelow := sa.below c
  unfold Within
  rw [descAddr_desc, descLen_desc]
  rcases (guarded_run hu t).2 c with hzero | ⟨haddr, hle⟩
  · left
    rw [hzero]
    rfl
  · by_cases hpos : (((clients ι sa.toSaDev).state u t).cfg c.aBytes).toNat = 0
    · exact Or.inl hpos
    · right
      have hmod : (sa.toSaDev.dmaAddr c).toNat = (sa.buf c).dma.toNat := by
        rw [SaDev.dmaAddr, BitVec.toNat_setWidth, Nat.mod_eq_of_lt]
        omega
      rw [haddr, hmod]
      omega

/-- Four buffers, one behind the other. -/
def probedDev : ProbedDev where
  buf c := ⟨BitVec.ofNat 64 (0x10000000 + 4096 * c.aDone), 4096⟩
  size_eq _ := rfl
  below c := by cases c <;> decide

/-- A cycle in which a client makes its next access. -/
def busCycle (k : Bool) : SysIn Bool :=
  ⟨fun _ => none, some k, fun _ => false, fun _ => false, fun _ => 0⟩

/-- Both clients call `SA_IOC_RUN`; after eight writes of one of them the other
writes two registers and the first one starts. -/
def overlappingRuns : ℕ → SysIn Bool
  | 0 => ⟨fun k => some (.run ⟨fun _ => if k then 64 else 4096, 0⟩), none, fun _ => false,
      fun _ => false, fun _ => 0⟩
  | t + 1 => busCycle (t == 8 || t == 9)

theorem overlappingRuns_noWriteReg : ∀ n, NoWriteReg (overlappingRuns n) :=
  noWriteReg_of_runs (fun _ => rfl) fun _ _ => rfl

theorem overlappingRuns_confined :
    descLen (((clients Bool probedDev.toSaDev).state overlappingRuns 12).cfg.desc .mm2s0) = 64 ∧
    Within (probedDev.buf .mm2s0)
      (((clients Bool probedDev.toSaDev).state overlappingRuns 12).cfg.desc .mm2s0) :=
  ⟨by decide +kernel,
    descriptors_confined Bool probedDev overlappingRuns overlappingRuns_noWriteReg 12 _⟩

end AxisSystolic
