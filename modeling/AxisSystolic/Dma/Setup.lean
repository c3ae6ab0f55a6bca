import AxisSystolic.Dma.Confined
import Mathlib.Data.List.Range
import Mathlib.Logic.Function.Basic

/-!
# The DMA buffers of the driver (`systolic_array_dma.c`, `systolic_array_main.c`)

`sa_dma_init` allocates `SA_NUM_MM2S` input buffers and one output buffer, and on
a failure frees those it has.  The kernel's answers are the parameter `Kernel`; an
allocation may fail at any call.  `DmaState` has the records of the buffers and the
calls that have been made, oldest first, so what has been allocated and what has
been freed can be read off the log.

Both loops that free buffers are a run of `sa_dma_free_one` over a list of records
(`freeAll`), which frees those of the list that are mapped, each once.
-/

namespace AxisSystolic

/-! ### Records and calls -/

/-- `struct sa_dma_buffer` with its mapping, `virt` null when there is none. -/
structure SaDmaBuffer extends DmaBuffer where
  virt : BitVec 64

/-- The record of a buffer that has been freed. -/
def SaDmaBuffer.cleared : SaDmaBuffer := ⟨⟨0, 0⟩, 0⟩

/-- A pointer to a record of `struct sa_dev`: `&sa->mm2s[i]` or `&sa->s2mm`. -/
inductive BufRef where
  | mm2s (i : ℕ)
  | s2mm
deriving DecidableEq

/-- What the driver asks of the kernel, and what it reports. -/
inductive DmaEvent where
  /-- `dma_alloc_coherent`, with its answer. -/
  | alloc (buf : SaDmaBuffer)
  /-- `dma_free_coherent`. -/
  | free (buf : SaDmaBuffer)
  | devErr (text : String)
  | devInfo (name : String) (buf : SaDmaBuffer)

/-- The records of the buffers and the calls so far. -/
structure DmaState where
  buf : BufRef → SaDmaBuffer
  log : List DmaEvent

/-- The answers of the kernel. -/
structure Kernel where
  devmKzalloc : Bool
  platformGetResource : Bool
  devmIoremapResource : ℤ
  dmaSetMaskAndCoherent : ℤ
  /-- The mapping and the bus address, given what has been asked before. -/
  dmaAllocCoherent : List DmaEvent → BitVec 64 → BitVec 64 × BitVec 64
  miscRegister : ℤ

/-- `ENODEV` and `ENOMEM`. -/
def enodev : ℤ := 19
def enomem : ℤ := 12

/-- `SA_DMA_BUF_SIZE`. -/
def saDmaBufSize : BitVec 64 := 4096

/-! ### `systolic_array_dma.c` -/

def DmaState.report (s : DmaState) (e : DmaEvent) : DmaState := { s with log := s.log ++ [e] }

/-- The record that an allocation fills in. -/
def Kernel.record (k : Kernel) (log : List DmaEvent) (size : BitVec 64) : SaDmaBuffer :=
  ⟨⟨(k.dmaAllocCoherent log size).2, size⟩, (k.dmaAllocCoherent log size).1⟩

def saDmaAllocOne (k : Kernel) (b : BufRef) (size : BitVec 64) (name : String) (s : DmaState) :
    ℤ × DmaState :=
  let buf := k.record s.log size
  let s' : DmaState := ⟨Function.update s.buf b buf, s.log ++ [.alloc buf]⟩
  if buf.virt = 0 then
    (-enomem, s'.report (.devErr ("failed to allocate " ++ name ++ " DMA buffer\n")))
  else (0, s'.report (.devInfo name buf))

def saDmaFreeOne (b : BufRef) (s : DmaState) : DmaState :=
  if (s.buf b).virt = 0 then s
  else ⟨Function.update s.buf b .cleared, s.log ++ [.free (s.buf b)]⟩

/-- The loop of `sa_dma_init` from `i` on, with `todo` buffers to go: what it
returns, the index it leaves and the state. -/
def allocMm2s (k : Kernel) : ℕ → ℕ → DmaState → ℤ × ℕ × DmaState
  | 0, i, s => (0, i, s)
  | todo + 1, i, s =>
    let r := saDmaAllocOne k (.mm2s i) saDmaBufSize ("mm2s" ++ toString i) s
    if r.1 ≠ 0 then (r.1, i, r.2) else allocMm2s k todo (i + 1) r.2

/-- The loop at `err_free_mm2s`, `while (i--)`. -/
def errFreeMm2s : ℕ → DmaState → DmaState
  | 0, s => s
  | i + 1, s => errFreeMm2s i (saDmaFreeOne (.mm2s i) s)

/-- `n` is `SA_NUM_MM2S`. -/
def saDmaInit (k : Kernel) (n : ℕ) (s : DmaState) : ℤ × DmaState :=
  if k.dmaSetMaskAndCoherent ≠ 0 then
    (k.dmaSetMaskAndCoherent, s.report (.devErr "failed to set 32-bit coherent DMA mask\n"))
  else
    let r := allocMm2s k n 0 s
    if r.1 ≠ 0 then (r.1, errFreeMm2s r.2.1 r.2.2)
    else
      let r' := saDmaAllocOne k .s2mm saDmaBufSize "s2mm" r.2.2
      if r'.1 ≠ 0 then (r'.1, errFreeMm2s r.2.1 r'.2) else (0, r'.2)

/-- The loop of `sa_dma_cleanup` from `i` on. -/
def freeMm2s : ℕ → ℕ → DmaState → DmaState
  | 0, _, s => s
  | todo + 1, i, s => freeMm2s todo (i + 1) (saDmaFreeOne (.mm2s i) s)

def saDmaCleanup (n : ℕ) (s : DmaState) : DmaState := freeMm2s n 0 (saDmaFreeOne .s2mm s)

/-! ### `sa_probe` and `sa_remove` -/

/-- What `devm_kzalloc` returns. -/
def DmaState.zeroed : DmaState := ⟨fun _ => .cleared, []⟩

def saProbe (k : Kernel) (n : ℕ) : ℤ × DmaState :=
  if !k.devmKzalloc then (-enomem, .zeroed)
  else if !k.platformGetResource then (-enodev, .zeroed)
  else if k.devmIoremapResource ≠ 0 then (k.devmIoremapResource, .zeroed)
  else
    let r := saDmaInit k n .zeroed
    if r.1 ≠ 0 then r
    else if k.miscRegister ≠ 0 then (k.miscRegister, saDmaCleanup n r.2)
    else (0, r.2)

def saRemove (n : ℕ) (s : DmaState) : DmaState := saDmaCleanup n s

/-! ### What has been allocated and freed -/

def DmaEvent.allocated : DmaEvent → Option SaDmaBuffer
  | .alloc buf => if buf.virt = 0 then none else some buf
  | _ => none

def DmaEvent.freed : DmaEvent → Option SaDmaBuffer
  | .free buf => some buf
  | _ => none

namespace DmaState

variable (s : DmaState)

/-- The buffers that have been allocated, oldest first. -/
def allocated : List SaDmaBuffer := s.log.filterMap DmaEvent.allocated

/-- The buffers that have been freed, oldest first. -/
def freed : List SaDmaBuffer := s.log.filterMap DmaEvent.freed

@[simp] theorem allocated_zeroed : zeroed.allocated = [] := rfl
@[simp] theorem freed_zeroed : zeroed.freed = [] := rfl

theorem allocated_append (f : BufRef → SaDmaBuffer) (l : List DmaEvent) (e : DmaEvent) :
    (⟨f, l ++ [e]⟩ : DmaState).allocated = l.filterMap DmaEvent.allocated ++ e.allocated.toList := by
  rw [allocated, List.filterMap_append, List.filterMap_cons]
  cases e.allocated <;> rfl

theorem freed_append (f : BufRef → SaDmaBuffer) (l : List DmaEvent) (e : DmaEvent) :
    (⟨f, l ++ [e]⟩ : DmaState).freed = l.filterMap DmaEvent.freed ++ e.freed.toList := by
  rw [freed, List.filterMap_append, List.filterMap_cons]
  cases e.freed <;> rfl

@[simp] theorem allocated_report (e : DmaEvent) :
    (s.report e).allocated = s.allocated ++ e.allocated.toList := allocated_append _ _ e

@[simp] theorem freed_report (e : DmaEvent) :
    (s.report e).freed = s.freed ++ e.freed.toList := freed_append _ _ e

end DmaState

section Alloc

variable (k : Kernel) (b : BufRef) (size : BitVec 64) (name : String) (s : DmaState)

theorem saDmaAllocOne_ret :
    (saDmaAllocOne k b size name s).1 = 0 ↔ (k.record s.log size).virt ≠ 0 := by
  by_cases hv : (k.record s.log size).virt = 0
  · rw [saDmaAllocOne, if_pos hv]
    exact ⟨fun h => absurd (show -enomem = 0 from h) (by decide), fun h => absurd hv h⟩
  · rw [saDmaAllocOne, if_neg hv]
    exact ⟨fun _ => hv, fun _ => rfl⟩

/-- The record is filled in and the call made; what follows is a report. -/
theorem saDmaAllocOne_eq : ∃ e, e.allocated = none ∧ e.freed = none ∧
    (saDmaAllocOne k b size name s).2 = DmaState.report
      ⟨Function.update s.buf b (k.record s.log size), s.log ++ [.alloc (k.record s.log size)]⟩ e := by
  rw [saDmaAllocOne]
  split
  · exact ⟨_, rfl, rfl, rfl⟩
  · exact ⟨_, rfl, rfl, rfl⟩

theorem saDmaAllocOne_buf : (saDmaAllocOne k b size name s).2.buf
    = Function.update s.buf b (k.record s.log size) := by
  obtain ⟨e, _, _, heq⟩ := saDmaAllocOne_eq k b size name s
  rw [heq]
  rfl

theorem saDmaAllocOne_allocated : (saDmaAllocOne k b size name s).2.allocated
    = s.allocated ++ (DmaEvent.alloc (k.record s.log size)).allocated.toList := by
  obtain ⟨e, halloc, _, heq⟩ := saDmaAllocOne_eq k b size name s
  rw [heq, DmaState.allocated_report, DmaState.allocated_append, halloc]
  exact List.append_nil _

theorem saDmaAllocOne_freed : (saDmaAllocOne k b size name s).2.freed = s.freed := by
  obtain ⟨e, _, hfreed, heq⟩ := saDmaAllocOne_eq k b size name s
  rw [heq, DmaState.freed_report, DmaState.freed_append, hfreed]
  exact (List.append_nil _).trans (List.append_nil _)

end Alloc

/-! ### Freeing a list of buffers -/

/-- `sa_dma_free_one` over a list of records. -/
def freeAll (l : List BufRef) (s : DmaState) : DmaState := l.foldl (fun s b => saDmaFreeOne b s) s

theorem freeAll_cons (b : BufRef) (l : List BufRef) (s : DmaState) :
    freeAll (b :: l) s = freeAll l (saDmaFreeOne b s) := rfl

theorem errFreeMm2s_eq (i : ℕ) (s : DmaState) :
    errFreeMm2s i s = freeAll ((List.range i).reverse.map .mm2s) s := by
  induction i generalizing s with
  | zero => rfl
  | succ i ih =>
    rw [errFreeMm2s, ih, List.range_succ, List.reverse_append]
    rfl

theorem freeMm2s_eq (todo i : ℕ) (s : DmaState) :
    freeMm2s todo i s = freeAll ((List.range' i todo).map .mm2s) s := by
  induction todo generalizing i s with
  | zero => rfl
  | succ todo ih =>
    rw [freeMm2s, ih, List.range'_succ, List.map_cons, freeAll_cons]

theorem saDmaCleanup_eq (n : ℕ) (s : DmaState) :
    saDmaCleanup n s = freeAll (.s2mm :: (List.range n).map .mm2s) s := by
  rw [saDmaCleanup, freeMm2s_eq, List.range_eq_range', freeAll_cons]

theorem saDmaFreeOne_of_null {b : BufRef} {s : DmaState} (h : (s.buf b).virt = 0) :
    saDmaFreeOne b s = s := if_pos h

theorem saDmaFreeOne_of_mapped {b : BufRef} {s : DmaState} (h : (s.buf b).virt ≠ 0) :
    saDmaFreeOne b s = ⟨Function.update s.buf b .cleared, s.log ++ [.free (s.buf b)]⟩ := if_neg h

theorem saDmaFreeOne_buf_of_ne {b b' : BufRef} (s : DmaState) (h : b' ≠ b) :
    (saDmaFreeOne b s).buf b' = s.buf b' := by
  by_cases hv : (s.buf b).virt = 0
  · rw [saDmaFreeOne_of_null hv]
  · rw [saDmaFreeOne_of_mapped hv]
    exact Function.update_of_ne h _ _

/-- A mapped buffer is freed, and its record cleared. -/
theorem saDmaFreeOne_mapped {b : BufRef} {s : DmaState} (h : (s.buf b).virt ≠ 0) :
    (saDmaFreeOne b s).buf b = .cleared ∧ (saDmaFreeOne b s).freed = s.freed ++ [s.buf b] ∧
      (saDmaFreeOne b s).allocated = s.allocated := by
  rw [saDmaFreeOne_of_mapped h]
  refine ⟨Function.update_self _ _ _, DmaState.freed_append _ _ _, ?_⟩
  rw [DmaState.allocated_append]
  exact List.append_nil _

theorem freeAll_of_null {l : List BufRef} {s : DmaState} (h : ∀ b ∈ l, (s.buf b).virt = 0) :
    freeAll l s = s := by
  induction l with
  | nil => rfl
  | cons b l ih =>
    rw [freeAll_cons, saDmaFreeOne_of_null (h b List.mem_cons_self)]
    exact ih fun b' hb' => h b' (List.mem_cons_of_mem b hb')

theorem freeAll_buf_of_not_mem {l : List BufRef} {s : DmaState} {b : BufRef} (h : b ∉ l) :
    (freeAll l s).buf b = s.buf b := by
  induction l generalizing s with
  | nil => rfl
  | cons b' l ih =>
    obtain ⟨hne, hnot⟩ := not_or.mp (List.mem_cons.not.mp h)
    rw [freeAll_cons, ih hnot, saDmaFreeOne_buf_of_ne s hne]

/-- Every buffer of the list is freed once, and its record cleared. -/
theorem freeAll_mapped {l : List BufRef} {s : DmaState} (hl : l.Nodup)
    (h : ∀ b ∈ l, (s.buf b).virt ≠ 0) :
    (∀ b ∈ l, (freeAll l s).buf b = .cleared) ∧ (freeAll l s).freed = s.freed ++ l.map s.buf ∧
      (freeAll l s).allocated = s.allocated := by
  induction l generalizing s with
  | nil => exact ⟨fun b hb => absurd hb List.not_mem_nil, (List.append_nil _).symm, rfl⟩
  | cons b l ih =>
    obtain ⟨hb, hl⟩ := List.nodup_cons.mp hl
    obtain ⟨hclear, hfreed, halloc⟩ := saDmaFreeOne_mapped (h b List.mem_cons_self)
    -- the records of the rest are those before
    have hrest : ∀ b' ∈ l, (saDmaFreeOne b s).buf b' = s.buf b' := by
      intro b' hb'
      refine saDmaFreeOne_buf_of_ne s ?_
      rintro rfl
      exact hb hb'
    have hmapped : ∀ b' ∈ l, ((saDmaFreeOne b s).buf b').virt ≠ 0 := by
      intro b' hb'
      rw [hrest b' hb']
      exact h b' (List.mem_cons_of_mem b hb')
    obtain ⟨hclears, hfreeds, hallocs⟩ := ih hl hmapped
    rw [freeAll_cons]
    refine ⟨?_, ?_, hallocs.trans halloc⟩
    · intro b' hb'
      rcases List.mem_cons.mp hb' with rfl | hmem
      · rw [freeAll_buf_of_not_mem hb, hclear]
      · exact hclears b' hmem
    · rw [hfreeds, hfreed, List.map_congr_left hrest, List.map_cons, List.append_assoc]
      rfl

/-! ### The buffers that are held -/

/-- The buffers of `l` are what has been allocated, and none has been freed. -/
structure Held (k : Kernel) (s : DmaState) (l : List BufRef) : Prop where
  allocated : s.allocated = l.map s.buf
  freed : s.freed = []
  mapped : ∀ b ∈ l, (s.buf b).virt ≠ 0
  answered : ∀ b ∈ l, ∃ log, s.buf b = k.record log saDmaBufSize
  nodup : l.Nodup

namespace Held

variable {k : Kernel} {s : DmaState} {l l' : List BufRef} {b : BufRef} {name : String}

theorem of_log (h : s.log = []) : Held k s [] where
  allocated := by rw [DmaState.allocated, h, List.filterMap_nil, List.map_nil]
  freed := by rw [DmaState.freed, h, List.filterMap_nil]
  mapped _ hb := absurd hb List.not_mem_nil
  answered _ hb := absurd hb List.not_mem_nil
  nodup := List.nodup_nil

/-- The records of the buffers held do not change. -/
theorem alloc_buf (hb : b ∉ l) {b' : BufRef} (hb' : b' ∈ l) :
    (saDmaAllocOne k b saDmaBufSize name s).2.buf b' = s.buf b' := by
  rw [saDmaAllocOne_buf]
  refine Function.update_of_ne ?_ _ _
  rintro rfl
  exact hb hb'

theorem alloc_failed (h : Held k s l) (hb : b ∉ l)
    (hr : (saDmaAllocOne k b saDmaBufSize name s).1 ≠ 0) :
    Held k (saDmaAllocOne k b saDmaBufSize name s).2 l where
  allocated := by
    have hv : (k.record s.log saDmaBufSize).virt = 0 := by
      by_contra hv
      exact hr ((saDmaAllocOne_ret k b saDmaBufSize name s).mpr hv)
    rw [saDmaAllocOne_allocated, DmaEvent.allocated, if_pos hv, h.allocated,
      List.map_congr_left fun b' hb' => alloc_buf hb hb']
    exact List.append_nil _
  freed := (saDmaAllocOne_freed k b saDmaBufSize name s).trans h.freed
  mapped b' hb' := by
    rw [alloc_buf hb hb']
    exact h.mapped b' hb'
  answered b' hb' := by
    rw [alloc_buf hb hb']
    exact h.answered b' hb'
  nodup := h.nodup

/-- The records afterwards are those held and the new one. -/
theorem alloc_record (k : Kernel) (s : DmaState) (name : String) (hb : b ∉ l) {b' : BufRef} (hb' : b' ∈ l ++ [b]) :
    b' ∈ l ∧ (saDmaAllocOne k b saDmaBufSize name s).2.buf b' = s.buf b' ∨
      (saDmaAllocOne k b saDmaBufSize name s).2.buf b' = k.record s.log saDmaBufSize := by
  rcases List.mem_append.mp hb' with hmem | hmem
  · exact .inl ⟨hmem, alloc_buf hb hmem⟩
  · rw [List.mem_singleton.mp hmem, saDmaAllocOne_buf, Function.update_self]
    exact .inr rfl

theorem alloc_ok (h : Held k s l) (hb : b ∉ l)
    (hr : (saDmaAllocOne k b saDmaBufSize name s).1 = 0) :
    Held k (saDmaAllocOne k b saDmaBufSize name s).2 (l ++ [b]) := by
  have hv := (saDmaAllocOne_ret k b saDmaBufSize name s).mp hr
  refine ⟨?_, (saDmaAllocOne_freed k b saDmaBufSize name s).trans h.freed, ?_, ?_, ?_⟩
  · rw [saDmaAllocOne_allocated, DmaEvent.allocated, if_neg hv, h.allocated, List.map_append,
      List.map_congr_left fun b' hb' => alloc_buf hb hb', List.map_singleton, saDmaAllocOne_buf,
      Function.update_self]
    rfl
  · intro b' hb'
    rcases alloc_record k s name hb hb' with ⟨hmem, heq⟩ | heq
    · rw [heq]
      exact h.mapped b' hmem
    · rw [heq]
      exact hv
  · intro b' hb'
    rcases alloc_record k s name hb hb' with ⟨hmem, heq⟩ | heq
    · rw [heq]
      exact h.answered b' hmem
    · exact ⟨s.log, heq⟩
  · refine List.nodup_append.mpr ⟨h.nodup, List.nodup_singleton b, ?_⟩
    rintro b' hb' b'' hb'' rfl
    exact hb (List.mem_singleton.mp hb'' ▸ hb')

/-- Freeing them all, in any order. -/
theorem all_freed (h : Held k s l) (hl : l'.Perm l) :
    (freeAll l' s).freed.Perm (freeAll l' s).allocated ∧
      (freeAll l' s).allocated = s.allocated ∧ ∀ b ∈ l, (freeAll l' s).buf b = .cleared := by
  obtain ⟨hclear, hfreed, halloc⟩ := freeAll_mapped (s := s) (hl.nodup_iff.mpr h.nodup)
    fun b hb => h.mapped b (hl.mem_iff.mp hb)
  refine ⟨?_, halloc, fun b hb => hclear b (hl.mem_iff.mpr hb)⟩
  rw [hfreed, halloc, h.freed, h.allocated, List.nil_append]
  exact hl.map s.buf

end Held

/-- The buffers before the `i`-th. -/
def mm2sBelow (i : ℕ) : List BufRef := (List.range i).map .mm2s

theorem mm2sBelow_succ (i : ℕ) : mm2sBelow (i + 1) = mm2sBelow i ++ [.mm2s i] := by
  rw [mm2sBelow, List.range_succ, List.map_append]
  rfl

theorem mem_mm2sBelow {i j : ℕ} : .mm2s j ∈ mm2sBelow i ↔ j < i := by
  simp [mm2sBelow]

/-- The loop of `sa_dma_init` holds the buffers before its index. -/
theorem held_allocMm2s (k : Kernel) (todo : ℕ) {i : ℕ} {s : DmaState}
    (h : Held k s (mm2sBelow i)) :
    Held k (allocMm2s k todo i s).2.2 (mm2sBelow (allocMm2s k todo i s).2.1) ∧
      ((allocMm2s k todo i s).1 = 0 → (allocMm2s k todo i s).2.1 = i + todo) := by
  induction todo generalizing i s with
  | zero => exact ⟨h, fun _ => rfl⟩
  | succ todo ih =>
    have hnot : BufRef.mm2s i ∉ mm2sBelow i := fun hmem => lt_irrefl i (mem_mm2sBelow.mp hmem)
    rw [allocMm2s]
    by_cases hr : (saDmaAllocOne k (.mm2s i) saDmaBufSize ("mm2s" ++ toString i) s).1 ≠ 0
    · rw [if_pos hr]
      exact ⟨h.alloc_failed hnot hr, fun h0 => absurd h0 hr⟩
    · rw [if_neg hr]
      obtain ⟨hheld, hidx⟩ := ih (mm2sBelow_succ i ▸ h.alloc_ok hnot (not_not.mp hr))
      exact ⟨hheld, fun h0 => (hidx h0).trans (by omega)⟩

/-- What has been allocated has been freed, each buffer once. -/
structure Unwound (s : DmaState) : Prop where
  freed : s.freed.Perm s.allocated
  cleared : ∀ j < s.allocated.length, s.buf (.mm2s j) = .cleared

/-- From `s` to `s'` each of the `n + 1` buffers has been freed once, and nothing is left
to free. -/
structure Released (n : ℕ) (s s' : DmaState) : Prop where
  count : s.allocated.length = n + 1
  unfreed : s.freed = []
  allocated : s'.allocated = s.allocated
  freed : s'.freed.Perm s.allocated
  again : saDmaCleanup n s' = s'

/-- The failures inside and after the loop are unwound alike. -/
theorem Held.unwound {k : Kernel} {i : ℕ} {s : DmaState} (h : Held k s (mm2sBelow i)) :
    Unwound (errFreeMm2s i s) := by
  rw [errFreeMm2s_eq, List.map_reverse]
  obtain ⟨hperm, halloc, hclear⟩ := h.all_freed (List.reverse_perm (mm2sBelow i))
  refine ⟨hperm, ?_⟩
  intro j hj
  rw [mm2sBelow] at halloc
  rw [halloc, h.allocated, List.length_map, mm2sBelow, List.length_map, List.length_range] at hj
  exact hclear _ (mem_mm2sBelow.mpr hj)

/-- `sa_dma_cleanup` frees them, and a second time nothing. -/
theorem Held.released {k : Kernel} {n : ℕ} {s : DmaState}
    (h : Held k s (mm2sBelow n ++ [.s2mm])) : Released n s (saDmaCleanup n s) := by
  have hswap : (BufRef.s2mm :: mm2sBelow n).Perm (mm2sBelow n ++ [.s2mm]) :=
    (List.perm_append_singleton _ _).symm
  obtain ⟨hperm, halloc, hclear⟩ := h.all_freed hswap
  have heq : saDmaCleanup n s = freeAll (.s2mm :: mm2sBelow n) s := saDmaCleanup_eq n s
  rw [heq]
  refine ⟨?_, h.freed, halloc, halloc ▸ hperm, ?_⟩
  · simp [h.allocated, mm2sBelow]
  · rw [saDmaCleanup_eq]
    refine freeAll_of_null ?_
    intro b hb
    rw [hclear b (hswap.mem_iff.mp hb)]
    rfl

/-- `sa_dma_init` holds all buffers, or none. -/
theorem held_saDmaInit (k : Kernel) (n : ℕ) {s : DmaState} (h : s.log = []) :
    (saDmaInit k n s).1 = 0 ∧ Held k (saDmaInit k n s).2 (mm2sBelow n ++ [.s2mm]) ∨
      (saDmaInit k n s).1 ≠ 0 ∧ Unwound (saDmaInit k n s).2 := by
  have hzero : Held k s (mm2sBelow 0) := Held.of_log h
  obtain ⟨hheld, hidx⟩ := held_allocMm2s k n hzero
  simp only [saDmaInit]
  by_cases hm : k.dmaSetMaskAndCoherent ≠ 0
  · rw [if_pos hm]
    have hlog : (s.report (.devErr "failed to set 32-bit coherent DMA mask\n")).allocated = [] := by
      rw [DmaState.allocated_report, hzero.allocated]
      rfl
    have hfreed : (s.report (.devErr "failed to set 32-bit coherent DMA mask\n")).freed = [] := by
      rw [DmaState.freed_report, hzero.freed]
      rfl
    refine .inr ⟨hm, ?_, ?_⟩
    · rw [hlog, hfreed]
    · rw [hlog]
      exact fun j hj => absurd hj (Nat.not_lt_zero j)
  rw [if_neg hm]
  by_cases hr : (allocMm2s k n 0 s).1 ≠ 0
  · rw [if_pos hr]
    exact .inr ⟨hr, hheld.unwound⟩
  rw [if_neg hr]
  have hnot : BufRef.s2mm ∉ mm2sBelow (allocMm2s k n 0 s).2.1 := by simp [mm2sBelow]
  by_cases hr' : (saDmaAllocOne k .s2mm saDmaBufSize "s2mm" (allocMm2s k n 0 s).2.2).1 ≠ 0
  · rw [if_pos hr']
    exact .inr ⟨hr', (hheld.alloc_failed hnot hr').unwound⟩
  · rw [if_neg hr']
    have hall := hheld.alloc_ok hnot (not_not.mp hr')
    rw [hidx (not_not.mp hr), Nat.zero_add] at hall
    exact .inl ⟨rfl, hall⟩

theorem saProbe_cases (k : Kernel) (n : ℕ) :
    (saProbe k n).1 = 0 ∧ Held k (saProbe k n).2 (mm2sBelow n ++ [.s2mm]) ∨
      (saProbe k n).1 ≠ 0 ∧ (saProbe k n).2.freed.Perm (saProbe k n).2.allocated := by
  simp only [saProbe]
  split
  · exact .inr ⟨by decide, List.Perm.nil⟩
  split
  · exact .inr ⟨by decide, List.Perm.nil⟩
  split
  · next hio => exact .inr ⟨hio, List.Perm.nil⟩
  rcases held_saDmaInit k n (s := .zeroed) rfl with ⟨hr, hheld⟩ | ⟨hr, hunwound⟩
  · rw [if_neg (not_not.mpr hr)]
    split
    · next hmisc =>
      have hrel := hheld.released
      exact .inr ⟨hmisc, hrel.allocated ▸ hrel.freed⟩
    · exact .inl ⟨rfl, hheld⟩
  · rw [if_pos hr]
    exact .inr ⟨hr, hunwound.freed⟩

/-- **Set-up frees what it has allocated, each buffer once, on every path.** -/
theorem setup_frees_once (k : Kernel) (n : ℕ) (f : BufRef → SaDmaBuffer) :
    ((saDmaInit k n ⟨f, []⟩).1 ≠ 0 → Unwound (saDmaInit k n ⟨f, []⟩).2) ∧
    ((saDmaInit k n ⟨f, []⟩).1 = 0 →
      Released n (saDmaInit k n ⟨f, []⟩).2 (saDmaCleanup n (saDmaInit k n ⟨f, []⟩).2)) ∧
    ((saProbe k n).1 ≠ 0 → (saProbe k n).2.freed.Perm (saProbe k n).2.allocated) ∧
    ((saProbe k n).1 = 0 → Released n (saProbe k n).2 (saRemove n (saProbe k n).2)) := by
  refine ⟨?_, ?_, ?_, ?_⟩
  · intro hne
    rcases held_saDmaInit k n (s := ⟨f, []⟩) rfl with ⟨hr, _⟩ | ⟨_, hunwound⟩
    · exact absurd hr hne
    · exact hunwound
  · intro h0
    rcases held_saDmaInit k n (s := ⟨f, []⟩) rfl with ⟨_, hheld⟩ | ⟨hr, _⟩
    · exact hheld.released
    · exact absurd h0 hr
  · intro hne
    rcases saProbe_cases k n with ⟨hr, _⟩ | ⟨_, hfreed⟩
    · exact absurd hr hne
    · exact hfreed
  · intro h0
    rcases saProbe_cases k n with ⟨_, hheld⟩ | ⟨hr, _⟩
    · exact hheld.released
    · exact absurd h0 hr

/-- A kernel that has memory for two buffers only. -/
def twoBuffers : Kernel where
  devmKzalloc := true
  platformGetResource := true
  devmIoremapResource := 0
  dmaSetMaskAndCoherent := 0
  dmaAllocCoherent log _ := if log.length < 4 then (BitVec.ofNat 64 (log.length + 1), 0) else (0, 0)
  miscRegister := 0

theorem twoBuffers_freed : (saDmaInit twoBuffers 3 .zeroed).2.freed.length = 2 := by
  have hfreed := ((setup_frees_once twoBuffers 3 DmaState.zeroed.buf).1 (by decide)).freed
  exact hfreed.length_eq.trans (by decide)

/-! ### The device after a set-up that succeeded -/

/-- The record of a channel. -/
def Channel.bufRef : Channel → BufRef
  | .mm2s0 => .mm2s 0
  | .mm2s1 => .mm2s 1
  | .mm2s2 => .mm2s 2
  | .s2mm => .s2mm

/-- The mask keeps what the kernel hands out below 4 GiB. -/
def Kernel.Masked (k : Kernel) : Prop :=
  ∀ log, (k.record log saDmaBufSize).virt ≠ 0 →
    (k.record log saDmaBufSize).dma.toNat + 4096 ≤ 2 ^ 32

theorem Channel.bufRef_mem (c : Channel) : c.bufRef ∈ mm2sBelow 3 ++ [.s2mm] := by
  cases c <;> decide

/-- The device that the calls find is a probed one. -/
theorem exists_probedDev {k : Kernel} (hk : k.Masked) (h : (saProbe k 3).1 = 0) :
    ∃ d : ProbedDev, ∀ c, d.buf c = ((saProbe k 3).2.buf c.bufRef).toDmaBuffer := by
  rcases saProbe_cases k 3 with ⟨_, hheld⟩ | ⟨hr, _⟩
  · have hsize : ∀ c : Channel, ((saProbe k 3).2.buf c.bufRef).size = 4096 ∧
        ((saProbe k 3).2.buf c.bufRef).dma.toNat + 4096 ≤ 2 ^ 32 := by
      intro c
      obtain ⟨log, hlog⟩ := hheld.answered c.bufRef c.bufRef_mem
      have hmapped := hheld.mapped c.bufRef c.bufRef_mem
      rw [hlog] at hmapped ⊢
      exact ⟨rfl, hk log hmapped⟩
    refine ⟨⟨⟨fun c => ((saProbe k 3).2.buf c.bufRef).toDmaBuffer⟩, fun c => (hsize c).1, ?_⟩,
      fun _ => rfl⟩
    intro c
    show ((saProbe k 3).2.buf c.bufRef).dma.toNat + ((saProbe k 3).2.buf c.bufRef).size.toNat
      ≤ 2 ^ 32
    rw [(hsize c).1]
    exact (hsize c).2
  · exact absurd h hr

end AxisSystolic
