import AxisSystolic.Dma.Ioctl
import AxisSystolic.Dma.Setup
import AxisSystolic.Mem.Region

/-!
# Copies to and from the DMA buffers (`systolic_array_dma.c`)

The driver checks a request against the size of its buffer and then copies between
the memory of the kernel, where the buffers are mapped, and that of the caller.  The
buffers are regions that do not overlap (`MappedDev`).  What they hold is four arrays
of bytes (`MappedDev.contents`), and a run of requests does to them what `arrays`,
the four arrays as a machine of their own, does.

User memory does not fault.
-/

namespace AxisSystolic

open Sync Mem

/-! ### Requests -/

/-- `SA_DMA_CH_MM2S0` and so on. -/
def Channel.number : Channel → BitVec 32
  | .mm2s0 => 0
  | .mm2s1 => 1
  | .mm2s2 => 2
  | .s2mm => 3

/-- `SA_IOC_COPY_TO_DMA` and `SA_IOC_COPY_FROM_DMA`. -/
inductive CopyIoctl where
  | copyToDma (xfer : DmaTransfer)
  | copyFromDma (xfer : DmaTransfer)

def CopyIoctl.xfer : CopyIoctl → DmaTransfer
  | copyToDma xfer => xfer
  | copyFromDma xfer => xfer

/-- A request, and the memory of its caller. -/
structure CopyIn where
  req : CopyIoctl
  user : Space 64

/-- What a request returns and leaves in the two memories. -/
structure CopyOut where
  ret : Ret
  kernel : Space 64
  user : Space 64

/-- The addresses at which a buffer is mapped. -/
def SaDmaBuffer.Inside (buf : SaDmaBuffer) (a : BitVec 64) : Prop :=
  offset buf.virt a < buf.size.toNat

/-- A device whose buffers are mapped, apart from one another. -/
structure MappedDev where
  buf : Channel → SaDmaBuffer
  mapped : ∀ c, (buf c).virt ≠ 0
  apart : ∀ c c' a, (buf c).Inside a → (buf c').Inside a → c = c'

/-- `sa_dma_check_range`. -/
def SaDmaBuffer.saDmaCheckRange (buf : Option SaDmaBuffer) (offset numBytes : BitVec 32) : Ret :=
  match buf with
  | none => .error .einval
  | some buf =>
    if buf.virt = 0 then .error .einval
    else if buf.size < offset.setWidth 64 then .error .einval
    else if buf.size - offset.setWidth 64 < numBytes.setWidth 64 then .error .einval
    else .ok ()

namespace MappedDev

variable (d : MappedDev)

/-- `sa_dma_get_buffer`. -/
def saDmaGetBuffer (channel : BitVec 32) : Option SaDmaBuffer :=
  (AxisSystolic.saDmaGetBuffer channel).map d.buf

def saDmaCopyToBuffer (xfer : DmaTransfer) (kernel user : Space 64) : CopyOut :=
  let buf := d.saDmaGetBuffer xfer.channel
  match SaDmaBuffer.saDmaCheckRange buf xfer.offset xfer.numBytes with
  | .error e => ⟨.error e, kernel, user⟩
  | .ok () =>
    let virt := (buf.map SaDmaBuffer.virt).getD 0
    ⟨.ok (), kernel.store (virt + xfer.offset.setWidth 64)
      (user.load xfer.userPtr xfer.numBytes.toNat), user⟩

def saDmaCopyFromBuffer (xfer : DmaTransfer) (kernel user : Space 64) : CopyOut :=
  let buf := d.saDmaGetBuffer xfer.channel
  match SaDmaBuffer.saDmaCheckRange buf xfer.offset xfer.numBytes with
  | .error e => ⟨.error e, kernel, user⟩
  | .ok () =>
    let virt := (buf.map SaDmaBuffer.virt).getD 0
    ⟨.ok (), kernel, user.store xfer.userPtr
      (kernel.load (virt + xfer.offset.setWidth 64) xfer.numBytes.toNat)⟩

/-- The two cases of `sa_ioctl`. -/
def saIoctl (i : CopyIn) (kernel : Space 64) : CopyOut :=
  match i.req with
  | .copyToDma xfer => d.saDmaCopyToBuffer xfer kernel i.user
  | .copyFromDma xfer => d.saDmaCopyFromBuffer xfer kernel i.user

end MappedDev

/-- The memory of the kernel under a run of requests. -/
def dmaCopies (d : MappedDev) (kernel : Space 64) : Machine (Space 64) CopyIn where
  reset := kernel
  step s i := (d.saIoctl i s).kernel

/-! ### Four arrays of bytes -/

/-- An array of bytes for each channel. -/
def Arrays (size : Channel → ℕ) : Type := (c : Channel) → Fin (size c) → BitVec 8

/-- The request is for channel `c` and stays inside its array. -/
def Accepts (size : Channel → ℕ) (xfer : DmaTransfer) (c : Channel) : Prop :=
  xfer.channel = c.number ∧ xfer.offset.toNat + xfer.numBytes.toNat ≤ size c

instance (size : Channel → ℕ) (xfer : DmaTransfer) (c : Channel) :
    Decidable (Accepts size xfer c) := inferInstanceAs (Decidable (_ ∧ _))

/-- The offset is in the range of the request. -/
def DmaTransfer.Covers (xfer : DmaTransfer) (k : ℕ) : Prop :=
  xfer.offset.toNat ≤ k ∧ k < xfer.offset.toNat + xfer.numBytes.toNat

instance (xfer : DmaTransfer) (k : ℕ) : Decidable (xfer.Covers k) :=
  inferInstanceAs (Decidable (_ ∧ _))

/-- The byte that the caller has for an offset of the buffer. -/
def DmaTransfer.byte (xfer : DmaTransfer) (user : Space 64) (k : ℕ) : BitVec 8 :=
  user (addr xfer.userPtr (k - xfer.offset.toNat))

namespace Arrays

variable {size : Channel → ℕ}

/-- The bytes of the caller replace those of the range. -/
def step (arr : Arrays size) (i : CopyIn) : Arrays size := fun c k =>
  match i.req with
  | .copyToDma xfer =>
    if Accepts size xfer c ∧ xfer.Covers k then xfer.byte i.user k else arr c k
  | .copyFromDma _ => arr c k

/-- The bytes of a range. -/
def slice (arr : Arrays size) (c : Channel) (off n : ℕ) (h : off + n ≤ size c) :
    List (BitVec 8) :=
  List.ofFn fun j : Fin n => arr c ⟨off + j, Nat.lt_of_lt_of_le (Nat.add_lt_add_left j.isLt off) h⟩

end Arrays

/-- Four arrays of bytes under a run of requests. -/
def arrays {size : Channel → ℕ} (arr : Arrays size) : Machine (Arrays size) CopyIn where
  reset := arr
  step := Arrays.step

namespace MappedDev

variable (d : MappedDev)

def size (c : Channel) : ℕ := (d.buf c).size.toNat

/-- What the buffers hold. -/
def contents (kernel : Space 64) : Arrays d.size := fun c k => kernel (addr (d.buf c).virt k)

end MappedDev

/-! ### What a request does -/

theorem Channel.number_inj {c c' : Channel} : c.number = c'.number ↔ c = c' := by
  refine ⟨?_, congrArg Channel.number⟩
  cases c <;> cases c' <;> decide

theorem Accepts.unique {size : Channel → ℕ} {xfer : DmaTransfer} {c c' : Channel}
    (h : Accepts size xfer c) (h' : Accepts size xfer c') : c = c' :=
  Channel.number_inj.mp (h.1.symm.trans h'.1)

theorem saDmaGetBuffer_eq_some {channel : BitVec 32} {c : Channel} :
    saDmaGetBuffer channel = some c ↔ channel = c.number := by
  refine ⟨?_, ?_⟩
  · intro h
    rw [saDmaGetBuffer] at h
    split_ifs at h with h0 h1 h2 h3
    · exact Option.some.inj h ▸ h0
    · exact Option.some.inj h ▸ h1
    · exact Option.some.inj h ▸ h2
    · exact Option.some.inj h ▸ h3
  · rintro rfl
    cases c <;> rfl

/-- Neither the comparison nor the subtraction wraps around. -/
theorem saDmaCheckRange_some {buf : SaDmaBuffer} {off n : BitVec 32} (hv : buf.virt ≠ 0) :
    SaDmaBuffer.saDmaCheckRange (some buf) off n
      = if off.toNat + n.toNat ≤ buf.size.toNat then .ok () else .error .einval := by
  have hoff : (off.setWidth 64).toNat = off.toNat := BitVec.toNat_setWidth_of_le (by decide)
  have hn : (n.setWidth 64).toNat = n.toNat := BitVec.toNat_setWidth_of_le (by decide)
  have hfirst : buf.size < off.setWidth 64 ↔ buf.size.toNat < off.toNat := by
    rw [BitVec.lt_def, hoff]
  simp only [SaDmaBuffer.saDmaCheckRange, if_neg hv]
  by_cases hlt : buf.size.toNat < off.toNat
  · rw [if_pos (hfirst.mpr hlt), if_neg (by omega)]
  · rw [if_neg (mt hfirst.mp hlt)]
    have hle : off.setWidth 64 ≤ buf.size := by
      rw [BitVec.le_def, hoff]
      exact Nat.le_of_not_lt hlt
    have hsecond : buf.size - off.setWidth 64 < n.setWidth 64
        ↔ buf.size.toNat - off.toNat < n.toNat := by
      rw [BitVec.lt_def, BitVec.toNat_sub_of_le hle, hoff, hn]
    by_cases hfit : off.toNat + n.toNat ≤ buf.size.toNat
    · rw [if_neg (mt hsecond.mp (by omega)), if_pos hfit]
    · rw [if_pos (hsecond.mpr (by omega)), if_neg hfit]

namespace MappedDev

variable (d : MappedDev) {kernel : Space 64} {xfer : DmaTransfer} {c : Channel}

theorem saDmaCheckRange_of_accepts (h : Accepts d.size xfer c) :
    SaDmaBuffer.saDmaCheckRange (d.saDmaGetBuffer xfer.channel) xfer.offset xfer.numBytes
      = .ok () := by
  rw [saDmaGetBuffer, saDmaGetBuffer_eq_some.mpr h.1, Option.map_some,
    saDmaCheckRange_some (d.mapped c)]
  exact if_pos h.2

theorem saDmaCheckRange_of_not_accepts (h : ∀ c, ¬Accepts d.size xfer c) :
    SaDmaBuffer.saDmaCheckRange (d.saDmaGetBuffer xfer.channel) xfer.offset xfer.numBytes
      = .error .einval := by
  rw [saDmaGetBuffer]
  cases hc : AxisSystolic.saDmaGetBuffer xfer.channel with
  | none => rfl
  | some c =>
    have hfit := h c
    rw [Accepts, ← saDmaGetBuffer_eq_some] at hfit
    rw [Option.map_some, saDmaCheckRange_some (d.mapped c)]
    exact if_neg fun hle => hfit ⟨hc, hle⟩

/-- The address that the driver computes. -/
theorem virt_add (h : Accepts d.size xfer c) :
    ((d.saDmaGetBuffer xfer.channel).map SaDmaBuffer.virt).getD 0 + xfer.offset.setWidth 64
      = addr (d.buf c).virt xfer.offset.toNat := by
  rw [saDmaGetBuffer, saDmaGetBuffer_eq_some.mpr h.1, addr, BitVec.ofNat_toNat]
  rfl

theorem saDmaCopyToBuffer_of_accepts (kernel user : Space 64) (h : Accepts d.size xfer c) :
    d.saDmaCopyToBuffer xfer kernel user
      = ⟨.ok (), kernel.store (addr (d.buf c).virt xfer.offset.toNat)
          (user.load xfer.userPtr xfer.numBytes.toNat), user⟩ := by
  simp only [saDmaCopyToBuffer, d.saDmaCheckRange_of_accepts h, d.virt_add h]

theorem saDmaCopyFromBuffer_of_accepts (kernel user : Space 64) (h : Accepts d.size xfer c) :
    d.saDmaCopyFromBuffer xfer kernel user
      = ⟨.ok (), kernel, user.store xfer.userPtr
          (kernel.load (addr (d.buf c).virt xfer.offset.toNat) xfer.numBytes.toNat)⟩ := by
  simp only [saDmaCopyFromBuffer, d.saDmaCheckRange_of_accepts h, d.virt_add h]

theorem saIoctl_copyToDma (kernel user : Space 64) :
    d.saIoctl ⟨.copyToDma xfer, user⟩ kernel = d.saDmaCopyToBuffer xfer kernel user := rfl

theorem saIoctl_copyFromDma (kernel user : Space 64) :
    d.saIoctl ⟨.copyFromDma xfer, user⟩ kernel = d.saDmaCopyFromBuffer xfer kernel user := rfl

theorem saIoctl_of_not_accepts (i : CopyIn) (kernel : Space 64)
    (h : ∀ c, ¬Accepts d.size i.req.xfer c) :
    d.saIoctl i kernel = ⟨.error .einval, kernel, i.user⟩ := by
  have hcheck := d.saDmaCheckRange_of_not_accepts h
  obtain ⟨req, user⟩ := i
  cases req with
  | copyToDma xfer =>
    rw [CopyIoctl.xfer] at hcheck
    simp only [saIoctl, saDmaCopyToBuffer, hcheck]
  | copyFromDma xfer =>
    rw [CopyIoctl.xfer] at hcheck
    simp only [saIoctl, saDmaCopyFromBuffer, hcheck]

/-- The copy is done exactly when some channel accepts it. -/
theorem saIoctl_ret_eq_ok (i : CopyIn) (kernel : Space 64) :
    (d.saIoctl i kernel).ret = .ok () ↔ ∃ c, Accepts d.size i.req.xfer c := by
  refine ⟨?_, ?_⟩
  · intro hret
    by_contra hnone
    rw [d.saIoctl_of_not_accepts i kernel (not_exists.mp hnone)] at hret
    exact nomatch hret
  · rintro ⟨c, h⟩
    obtain ⟨req, user⟩ := i
    cases req with
    | copyToDma xfer =>
      rw [CopyIoctl.xfer] at h
      rw [saIoctl_copyToDma, d.saDmaCopyToBuffer_of_accepts kernel user h]
    | copyFromDma xfer =>
      rw [CopyIoctl.xfer] at h
      rw [saIoctl_copyFromDma, d.saDmaCopyFromBuffer_of_accepts kernel user h]

/-- The check of the model of the calls is the same. -/
theorem saDmaCheckRange_mapped (channel off n : BitVec 32) :
    SaDmaBuffer.saDmaCheckRange (d.saDmaGetBuffer channel) off n
      = saDmaCheckRange ((AxisSystolic.saDmaGetBuffer channel).map
          fun c => (d.buf c).toDmaBuffer) off n := by
  rw [saDmaGetBuffer]
  cases AxisSystolic.saDmaGetBuffer channel with
  | none => rfl
  | some c =>
    rw [Option.map_some, Option.map_some, saDmaCheckRange_some (d.mapped c), saDmaCheckRange]
    split_ifs <;> first | rfl | omega

theorem saIoctl_ret (i : CopyIn) (kernel : Space 64) :
    (d.saIoctl i kernel).ret = saDmaCopy ⟨fun c => (d.buf c).toDmaBuffer⟩ i.req.xfer := by
  rw [saDmaCopy, ← d.saDmaCheckRange_mapped]
  obtain ⟨req, user⟩ := i
  cases req with
  | copyToDma xfer =>
    rw [saIoctl_copyToDma, saDmaCopyToBuffer, CopyIoctl.xfer]
    split <;> next hret => rw [hret]
  | copyFromDma xfer =>
    rw [saIoctl_copyFromDma, saDmaCopyFromBuffer, CopyIoctl.xfer]
    split <;> next hret => rw [hret]

/-! ### The buffers and the arrays -/

theorem fits (h : Accepts d.size xfer c) :
    xfer.offset.toNat + xfer.numBytes.toNat ≤ 2 ^ 64 :=
  h.2.trans (d.buf c).size.isLt.le

theorem offset_addr_virt (c : Channel) (k : Fin (d.size c)) :
    offset (d.buf c).virt (addr (d.buf c).virt k) = k :=
  offset_addr (k.isLt.trans (d.buf c).size.isLt)

/-- An address of a buffer is outside the others. -/
theorem not_inside {c c' : Channel} (hc : c' ≠ c) (k : Fin (d.size c')) :
    ¬(d.buf c).Inside (addr (d.buf c').virt k) := by
  intro hin
  refine hc (d.apart c' c _ ?_ hin)
  rw [SaDmaBuffer.Inside, d.offset_addr_virt]
  exact k.isLt

theorem not_covers (h : Accepts d.size xfer c) {a : BitVec 64} (ha : ¬(d.buf c).Inside a) :
    ¬xfer.Covers (offset (d.buf c).virt a) :=
  fun hcov => ha (hcov.2.trans_le h.2)

/-- A request changes the range of its buffer, and no other byte of the kernel. -/
theorem kernel_copyToDma (kernel user : Space 64) (h : Accepts d.size xfer c) (a : BitVec 64) :
    (d.saIoctl ⟨.copyToDma xfer, user⟩ kernel).kernel a
      = if xfer.Covers (offset (d.buf c).virt a) then xfer.byte user (offset (d.buf c).virt a)
        else kernel a := by
  rw [saIoctl_copyToDma, d.saDmaCopyToBuffer_of_accepts kernel user h]
  exact store_load user xfer.userPtr (d.fits h)

theorem kernel_copyFromDma (kernel user : Space 64) :
    (d.saIoctl ⟨.copyFromDma xfer, user⟩ kernel).kernel = kernel := by
  by_cases h : ∃ c, Accepts d.size xfer c
  · obtain ⟨c, h⟩ := h
    rw [saIoctl_copyFromDma, d.saDmaCopyFromBuffer_of_accepts kernel user h]
  · rw [d.saIoctl_of_not_accepts ⟨.copyFromDma xfer, user⟩ kernel (not_exists.mp h)]

/-- What a request copies back is the range of its array. -/
theorem load_eq_slice (kernel : Space 64) (h : Accepts d.size xfer c) :
    kernel.load (addr (d.buf c).virt xfer.offset.toNat) xfer.numBytes.toNat
      = (d.contents kernel).slice c xfer.offset.toNat xfer.numBytes.toNat h.2 := by
  refine List.ext_getElem ?_ ?_
  · rw [length_load, Arrays.slice, List.length_ofFn]
  · intro j hj hj'
    simp only [Space.load, Arrays.slice, contents, List.getElem_map, List.getElem_range,
      List.getElem_ofFn, addr_addr]

/-- **One request does to the buffers what it does to the arrays.** -/
theorem contents_saIoctl (i : CopyIn) (kernel : Space 64) :
    d.contents (d.saIoctl i kernel).kernel = (d.contents kernel).step i := by
  obtain ⟨req, user⟩ := i
  cases req with
  | copyFromDma xfer => rw [kernel_copyFromDma]; rfl
  | copyToDma xfer =>
    funext c' k
    simp only [Arrays.step]
    by_cases h : ∃ c, Accepts d.size xfer c
    · obtain ⟨c, h⟩ := h
      rw [contents, d.kernel_copyToDma kernel user h]
      by_cases hc : c' = c
      · subst hc
        simp only [d.offset_addr_virt, h, true_and, contents]
      · rw [if_neg (d.not_covers h (d.not_inside hc k)), if_neg fun hk => hc (hk.1.unique h),
          contents]
    · rw [if_neg fun hk => h ⟨c', hk.1⟩,
        d.saIoctl_of_not_accepts ⟨.copyToDma xfer, user⟩ kernel (not_exists.mp h)]

/-- So does a run of requests. -/
theorem contents_state (kernel : Space 64) (u : ℕ → CopyIn) (t : ℕ) :
    d.contents ((dmaCopies d kernel).state u t) = (arrays (d.contents kernel)).state u t := by
  induction t with
  | zero => rfl
  | succ t ih =>
    rw [Machine.state_succ, Machine.state_succ, ← ih]
    exact d.contents_saIoctl (u t) _

end MappedDev

/-- **The buffers are four bounded arrays of bytes.** -/
theorem copies_bounded (d : MappedDev) (kernel : Space 64) (u : ℕ → CopyIn) (t : ℕ) :
    let m := (dmaCopies d kernel).state u t
    let arr := (arrays (d.contents kernel)).state u t
    let out := d.saIoctl (u t) m
    d.contents m = arr ∧
    (out.ret = .ok () ↔ ∃ c, Accepts d.size (u t).req.xfer c) ∧
    (∀ xfer c, (u t).req = .copyToDma xfer → Accepts d.size xfer c →
      (∀ c' k, d.contents out.kernel c' k
        = if c' = c ∧ xfer.Covers k then xfer.byte (u t).user k else arr c' k) ∧
      (∀ a, (∀ c', ¬(d.buf c').Inside a) → out.kernel a = m a) ∧
      out.user = (u t).user) ∧
    (∀ xfer c, (u t).req = .copyFromDma xfer → (h : Accepts d.size xfer c) →
      out.kernel = m ∧
      out.user = (u t).user.store xfer.userPtr
        (arr.slice c xfer.offset.toNat xfer.numBytes.toNat h.2)) ∧
    ((∀ c, ¬Accepts d.size (u t).req.xfer c) → out.kernel = m ∧ out.user = (u t).user) := by
  intro m arr out
  have hcontents : d.contents m = arr := d.contents_state kernel u t
  refine ⟨hcontents, d.saIoctl_ret_eq_ok (u t) m, ?_, ?_, ?_⟩
  · intro xfer c hreq h
    have hu : u t = ⟨.copyToDma xfer, (u t).user⟩ := by rw [← hreq]
    have hout : out = d.saIoctl ⟨.copyToDma xfer, (u t).user⟩ m := by rw [← hu]
    refine ⟨?_, ?_, ?_⟩
    · intro c' k
      have hiff : Accepts d.size xfer c' ↔ c' = c := ⟨fun h' => h'.unique h, fun hc => hc ▸ h⟩
      rw [hout, d.contents_saIoctl, hcontents]
      simp only [Arrays.step, hiff]
    · intro a ha
      rw [hout, d.kernel_copyToDma m (u t).user h, if_neg (d.not_covers h (ha c))]
    · rw [hout, d.saIoctl_copyToDma, d.saDmaCopyToBuffer_of_accepts m (u t).user h]
  · intro xfer c hreq h
    have hu : u t = ⟨.copyFromDma xfer, (u t).user⟩ := by rw [← hreq]
    have hout : out = d.saIoctl ⟨.copyFromDma xfer, (u t).user⟩ m := by rw [← hu]
    refine ⟨?_, ?_⟩
    · rw [hout, d.kernel_copyFromDma]
    · rw [hout, d.saIoctl_copyFromDma, d.saDmaCopyFromBuffer_of_accepts m (u t).user h,
        d.load_eq_slice m h, hcontents]
  · intro hnone
    simp only [out, d.saIoctl_of_not_accepts (u t) m hnone, and_self]

/-- The page of a channel. -/
def pageOf (c : Channel) : SaDmaBuffer :=
  ⟨⟨c.number.setWidth 64 * 4096, 4096⟩, (c.number.setWidth 64 + 1) * 4096⟩

theorem pageOf_virt (c : Channel) : (pageOf c).virt ≠ 0 := by
  cases c <;> decide

theorem pageOf_apart (c c' : Channel) (a : BitVec 64) (h : (pageOf c).Inside a)
    (h' : (pageOf c').Inside a) : c = c' := by
  have hdiff : ((pageOf c').virt - (pageOf c).virt).toNat < 4096 ∨
      ((pageOf c).virt - (pageOf c').virt).toNat < 4096 := by
    rw [SaDmaBuffer.Inside, offset] at h h'
    change _ < 4096 at h h'
    bv_omega
  revert hdiff
  cases c <;> cases c' <;> decide

/-- Four pages in a row. -/
def fourPages : MappedDev := ⟨pageOf, pageOf_virt, pageOf_apart⟩

/-- Two bytes go to the end of a page and come back from there, and the next
request is for a byte behind the page. -/
def pageCopies : ℕ → CopyIn
  | 0 => ⟨.copyToDma ⟨1, 4094, 2, 0⟩, fun a => a.setWidth 8 + 7⟩
  | 1 => ⟨.copyFromDma ⟨1, 4094, 2, 16⟩, fun _ => 0⟩
  | _ => ⟨.copyToDma ⟨1, 4095, 2, 0⟩, fun _ => 0⟩

theorem fourPages_copies :
    let out (t : ℕ) := fourPages.saIoctl (pageCopies t)
      ((dmaCopies fourPages fun _ => 0).state pageCopies t)
    (out 0).ret = .ok () ∧
    fourPages.contents (out 0).kernel .mm2s1 ⟨4095, by decide⟩ = 8 ∧
    fourPages.contents (out 0).kernel .mm2s2 ⟨0, by decide⟩ = 0 ∧
    (out 1).user 16 = 7 ∧ (out 1).user 17 = 8 ∧ (out 1).user 18 = 0 ∧
    (out 2).ret ≠ .ok () := by
  intro out
  have hrun := copies_bounded fourPages (fun _ => 0) pageCopies
  have haccepted : Accepts fourPages.size (pageCopies 0).req.xfer .mm2s1 := by decide
  have hto := (hrun 0).2.2.1 _ .mm2s1 rfl haccepted
  have hfrom := (hrun 1).2.2.2.1 _ .mm2s1 rfl (by decide)
  have hrefused : ¬ ∃ c, Accepts fourPages.size (pageCopies 2).req.xfer c := by
    rintro ⟨c, hc⟩
    revert hc
    cases c <;> decide
  refine ⟨(hrun 0).2.1.mpr ⟨_, haccepted⟩, hto.1 _ _, hto.1 _ _, ?_, ?_, ?_, ?_⟩
  · exact congrFun hfrom.2 16
  · exact congrFun hfrom.2 17
  · exact congrFun hfrom.2 18
  · exact mt (hrun 2).2.1.mp hrefused

/-! ### The device after a set-up that succeeded -/

/-- The mappings that the kernel has handed out do not overlap. -/
def DmaState.Apart (s : DmaState) : Prop :=
  ∀ c c' : Channel, ∀ a, (s.buf c.bufRef).Inside a → (s.buf c'.bufRef).Inside a → c = c'

/-- The device that the calls find is a mapped one. -/
theorem exists_mappedDev {k : Kernel} (hk : (saProbe k 3).2.Apart) (h : (saProbe k 3).1 = 0) :
    ∃ d : MappedDev, ∀ c, d.buf c = (saProbe k 3).2.buf c.bufRef := by
  rcases saProbe_cases k 3 with ⟨_, hheld⟩ | ⟨hr, _⟩
  · exact ⟨⟨fun c => (saProbe k 3).2.buf c.bufRef,
      fun c => hheld.mapped c.bufRef c.bufRef_mem, hk⟩, fun _ => rfl⟩
  · exact absurd h hr

end AxisSystolic
