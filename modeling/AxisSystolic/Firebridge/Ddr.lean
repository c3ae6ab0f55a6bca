import AxisSystolic.Mem.Region
import AxisSystolic.Mem.Word
import AxisSystolic.Sync.Machine
import Mathlib.Data.Nat.Log
import Mathlib.Logic.Function.Basic

/-!
# The memory of the simulation (`fb_fw_wrap.h`, `fb_axi_vip.sv`)

The firmware runs on the host, where its memory is an object with a 64-bit address
(`Backing`).  The device sees the object in a window from `FB_SIM_DDR_BASE` on, through
words of `2 ^ exp` bytes.  Each lane of a word is read and written by a call that widens
its 32-bit address to a host pointer.

`byteAddr` and `objOffset` say where a lane lies in the window and in the object,
without wraparound; `fbWidenPtr_laneAddr` is that the code arrives at the same byte.
-/

namespace AxisSystolic

open Sync Mem

/-! ### Pointers (`fb_fw_wrap.h`) -/

/-- `FB_SIM_DDR_BASE`. -/
def fbSimDdrBase : BitVec 32 := 0x20000000

def fbShortenPtr (addr pMem : BitVec 64) : BitVec 32 :=
  let offset := addr - pMem
  offset.setWidth 32 + fbSimDdrBase

def fbWidenPtr (addr : BitVec 32) (pMem : BitVec 64) : BitVec 64 :=
  addr.setWidth 64 - fbSimDdrBase.setWidth 64 + pMem

/-- `fb_c_read_ddr8_addr32`. -/
def fbCReadDdr8Addr32 (addr32 : BitVec 32) (pMem : BitVec 64) (host : Space 64) : BitVec 8 :=
  host (fbWidenPtr addr32 pMem)

/-- `fb_c_write_ddr8_addr32`. -/
def fbCWriteDdr8Addr32 (addr32 : BitVec 32) (data : BitVec 8) (pMem : BitVec 64)
    (host : Space 64) : Space 64 :=
  Function.update host (fbWidenPtr addr32 pMem) data

/-! ### A port (`fb_axi_vip.sv`) -/

/-- The parameters of the AXI masters. -/
structure VipParams where
  mAxiDataWidth : ℕ
  mAxiAddrWidth : ℕ
  exp : ℕ
  mAxiDataWidth_eq : mAxiDataWidth = 8 * 2 ^ exp

namespace VipParams

variable (p : VipParams)

/-- `LSB`. -/
def lsb : ℕ := Nat.clog 2 p.mAxiDataWidth - 3

/-- A word address. -/
abbrev WordAddr : Type := BitVec (p.mAxiAddrWidth - p.lsb)

/-- The argument of the calls for lane `i`. -/
def laneAddr (a : p.WordAddr) (i : ℕ) : BitVec 32 :=
  (a.setWidth 32 <<< p.lsb) + BitVec.ofNat 32 i

end VipParams

/-- What `zipcpu_axi2ram` asks of the memory in a cycle. -/
structure DdrIn (p : VipParams) where
  rstn : Bool
  ren : Bool
  raddr : p.WordAddr
  wen : Bool
  waddr : p.WordAddr
  wdata : BitVec p.mAxiDataWidth
  wstrb : BitVec (p.mAxiDataWidth / 8)

/-- The registers of a port, and the memory of the host. -/
structure DdrState (p : VipParams) where
  tmpData : BitVec p.mAxiDataWidth
  rdata : BitVec p.mAxiDataWidth
  host : Space 64

namespace VipParams

variable (p : VipParams) (pMem : BitVec 64)

/-- The loop over the first `n` lanes that reads a word. -/
def readLanes (host : Space 64) (a : p.WordAddr) :
    ℕ → BitVec p.mAxiDataWidth → BitVec p.mAxiDataWidth
  | 0, tmpData => tmpData
  | n + 1, tmpData =>
    setByte (readLanes host a n tmpData) n (fbCReadDdr8Addr32 (p.laneAddr a n) pMem host)

/-- The loop over the first `n` lanes that writes those with a strobe. -/
def writeLanes (i : DdrIn p) : ℕ → Space 64 → Space 64
  | 0, host => host
  | n + 1, host =>
    if i.wstrb.getLsbD n then
      fbCWriteDdr8Addr32 (p.laneAddr i.waddr n) (byteOf i.wdata n) pMem (writeLanes i n host)
    else writeLanes i n host

def ddrStep (s : DdrState p) (i : DdrIn p) : DdrState p :=
  if !i.rstn then { s with tmpData := 0, rdata := 0 }
  else
    let tmpData :=
      if i.ren then p.readLanes pMem s.host i.raddr (p.mAxiDataWidth / 8) s.tmpData else s.tmpData
    { tmpData
      rdata := if i.ren then tmpData else s.rdata
      host := if i.wen then p.writeLanes pMem i (p.mAxiDataWidth / 8) s.host else s.host }

def ddr (host : Space 64) : Machine (DdrState p) (DdrIn p) where
  reset := ⟨0, 0, host⟩
  step := p.ddrStep pMem

end VipParams

/-! ### The object -/

/-- The object behind the memory. -/
structure Backing where
  base : BitVec 64
  size : ℕ
  size_le : size + 0x20000000 ≤ 2 ^ 32

namespace VipParams

variable (p : VipParams)

/-- The address of lane `k` of a word. -/
def byteAddr (a : p.WordAddr) (k : ℕ) : ℕ := a.toNat * 2 ^ p.exp + k

/-- The byte of the object that it is. -/
def objOffset (a : p.WordAddr) (k : ℕ) : ℕ := p.byteAddr a k - 0x20000000

end VipParams

/-- The address is in the window of the object. -/
def Backing.Has (o : Backing) (x : ℕ) : Prop := 0x20000000 ≤ x ∧ x < 0x20000000 + o.size

instance (o : Backing) (x : ℕ) : Decidable (o.Has x) := inferInstanceAs (Decidable (_ ∧ _))

namespace DdrIn

variable {p : VipParams} (i : DdrIn p)

def reads : Bool := i.rstn && i.ren

def writes : Bool := i.rstn && i.wen

/-- The bytes that are read or written are bytes of the object. -/
def Within (o : Backing) : Prop :=
  (i.reads = true → ∀ k < p.mAxiDataWidth / 8, o.Has (p.byteAddr i.raddr k)) ∧
    (i.writes = true → ∀ k < p.mAxiDataWidth / 8, i.wstrb.getLsbD k = true →
      o.Has (p.byteAddr i.waddr k))

instance (o : Backing) : Decidable (i.Within o) := inferInstanceAs (Decidable (_ ∧ _))

/-- What the cycle writes to a byte of the object. -/
def strobed (off : ℕ) : Option (BitVec 8) :=
  if i.writes then
    ((List.range (p.mAxiDataWidth / 8)).find? fun k =>
      i.wstrb.getLsbD k && p.byteAddr i.waddr k == 0x20000000 + off).map (byteOf i.wdata)
  else none

end DdrIn

/-! ### Pointers into the object -/

namespace VipParams

variable (p : VipParams)

theorem lsb_eq : p.lsb = p.exp := by
  have hpow : p.mAxiDataWidth = 2 ^ (p.exp + 3) := by
    rw [p.mAxiDataWidth_eq, Nat.pow_add]
    omega
  rw [lsb, hpow, Nat.clog_pow 2 _ (by decide)]
  omega

/-- A lane address that is one of 32 bits does not wrap around. -/
theorem laneAddr_toNat {a : p.WordAddr} {k : ℕ} (h : p.byteAddr a k < 2 ^ 32) :
    (p.laneAddr a k).toNat = p.byteAddr a k := by
  rw [laneAddr, BitVec.toNat_add, BitVec.toNat_shiftLeft, BitVec.toNat_setWidth,
    BitVec.toNat_ofNat, Nat.shiftLeft_eq]
  rw [byteAddr] at h ⊢
  generalize a.toNat = x at h ⊢
  have hmul : x * 2 ^ p.exp < 2 ^ 32 := Nat.lt_of_le_of_lt (Nat.le_add_right _ k) h
  have hx : x ≤ x * 2 ^ p.exp := Nat.le_mul_of_pos_right _ (Nat.two_pow_pos _)
  rw [p.lsb_eq, Nat.mod_eq_of_lt (Nat.lt_of_le_of_lt hx hmul), Nat.mod_eq_of_lt hmul,
    Nat.mod_eq_of_lt (Nat.lt_of_le_of_lt (Nat.le_add_left k _) h)]
  exact Nat.mod_eq_of_lt h

end VipParams

theorem fbWidenPtr_eq {a : BitVec 32} {pMem : BitVec 64} (h : 0x20000000 ≤ a.toNat) :
    fbWidenPtr a pMem = addr pMem (a.toNat - 0x20000000) := by
  have hsub : a.setWidth 64 - fbSimDdrBase.setWidth 64 = BitVec.ofNat 64 (a.toNat - 0x20000000) := by
    apply BitVec.eq_of_toNat_eq
    have : (fbSimDdrBase.setWidth 64).toNat = 0x20000000 := by decide
    bv_omega
  rw [fbWidenPtr, hsub, addr, add_comm]

theorem fbShortenPtr_toNat {pMem : BitVec 64} {off : ℕ} (h : off + 0x20000000 < 2 ^ 32) :
    (fbShortenPtr (addr pMem off) pMem).toNat = off + 0x20000000 := by
  have hbase : fbSimDdrBase.toNat = 0x20000000 := by decide
  have hdiff : (addr pMem off - pMem).toNat = off := offset_addr (by omega)
  simp only [fbShortenPtr]
  rw [BitVec.toNat_add, BitVec.toNat_setWidth, hbase, hdiff]
  omega

/-- Widening undoes shortening. -/
theorem fbWidenPtr_fbShortenPtr {pMem : BitVec 64} {off : ℕ} (h : off + 0x20000000 < 2 ^ 32) :
    fbWidenPtr (fbShortenPtr (addr pMem off) pMem) pMem = addr pMem off := by
  rw [fbWidenPtr_eq (by rw [fbShortenPtr_toNat h]; omega), fbShortenPtr_toNat h,
    Nat.add_sub_cancel]

/-! ### Lanes of a word -/

namespace VipParams

variable (p : VipParams) {o : Backing} {host : Space 64} {n k off : ℕ}

/-- The code arrives at the byte of the object. -/
theorem fbWidenPtr_laneAddr {a : p.WordAddr} (h : o.Has (p.byteAddr a k)) :
    fbWidenPtr (p.laneAddr a k) o.base = addr o.base (p.objOffset a k) := by
  have hlt : p.byteAddr a k < 2 ^ 32 := by
    have := o.size_le
    have := h.2
    omega
  rw [fbWidenPtr_eq (by rw [p.laneAddr_toNat hlt]; exact h.1), p.laneAddr_toNat hlt]
  rfl

theorem objOffset_lt {a : p.WordAddr} (h : o.Has (p.byteAddr a k)) :
    p.objOffset a k < 2 ^ 64 := by
  have := o.size_le
  have := h.2
  have : p.objOffset a k ≤ p.byteAddr a k := Nat.sub_le _ _
  omega

theorem addr_objOffset {a : p.WordAddr} (h : o.Has (p.byteAddr a k)) (hoff : off < 2 ^ 64) :
    addr o.base off = addr o.base (p.objOffset a k) ↔ p.byteAddr a k = 0x20000000 + off := by
  have hle := o.size_le
  obtain ⟨hge, hlt⟩ := h
  have hobj : p.objOffset a k + 0x20000000 = p.byteAddr a k := Nat.sub_add_cancel hge
  rw [addr_inj hoff (p.objOffset_lt ⟨hge, hlt⟩)]
  omega

theorem objOffset_inj {a : p.WordAddr} {j : ℕ} (hj : o.Has (p.byteAddr a j))
    (hk : o.Has (p.byteAddr a k))
    (h : addr o.base (p.objOffset a j) = addr o.base (p.objOffset a k)) : j = k := by
  have hobj : p.objOffset a j + 0x20000000 = p.byteAddr a j := Nat.sub_add_cancel hj.1
  rw [p.addr_objOffset hk (p.objOffset_lt hj)] at h
  have heq : p.byteAddr a k = p.byteAddr a j := by omega
  exact (Nat.add_left_cancel heq).symm

theorem byteOf_readLanes {a : p.WordAddr} (hn : n ≤ p.mAxiDataWidth / 8)
    (hin : ∀ k < n, o.Has (p.byteAddr a k)) (hk : k < n) (d : BitVec p.mAxiDataWidth) :
    byteOf (p.readLanes o.base host a n d) k = host (addr o.base (p.objOffset a k)) := by
  induction n with
  | zero => exact absurd hk (Nat.not_lt_zero k)
  | succ n ih =>
    rw [readLanes, byteOf_setByte (by omega)]
    split
    · next heq =>
      subst heq
      rw [fbCReadDdr8Addr32, p.fbWidenPtr_laneAddr (hin k hk)]
    · exact ih (by omega) (fun j hj => hin j (by omega)) (by omega)

theorem writeLanes_of_strobe {i : DdrIn p}
    (hin : ∀ k < n, i.wstrb.getLsbD k = true → o.Has (p.byteAddr i.waddr k)) (hk : k < n)
    (hs : i.wstrb.getLsbD k = true) :
    p.writeLanes o.base i n host (addr o.base (p.objOffset i.waddr k)) = byteOf i.wdata k := by
  induction n with
  | zero => exact absurd hk (Nat.not_lt_zero k)
  | succ n ih =>
    rw [writeLanes]
    by_cases hkn : k = n
    · subst hkn
      rw [if_pos hs, fbCWriteDdr8Addr32, p.fbWidenPtr_laneAddr (hin k hk hs),
        Function.update_self]
    · have hrest := ih (fun j hj => hin j (by omega)) (by omega)
      split
      · next hsn =>
        have hne : addr o.base (p.objOffset i.waddr k) ≠ addr o.base (p.objOffset i.waddr n) := by
          intro heq
          exact hkn (p.objOffset_inj (hin k hk hs) (hin n (Nat.lt_succ_self n) hsn) heq)
        rw [fbCWriteDdr8Addr32, p.fbWidenPtr_laneAddr (hin n (Nat.lt_succ_self n) hsn),
          Function.update_of_ne hne, hrest]
      · exact hrest

theorem writeLanes_of_ne {i : DdrIn p} {a : BitVec 64}
    (hin : ∀ k < n, i.wstrb.getLsbD k = true → o.Has (p.byteAddr i.waddr k))
    (ha : ∀ k < n, i.wstrb.getLsbD k = true → a ≠ addr o.base (p.objOffset i.waddr k)) :
    p.writeLanes o.base i n host a = host a := by
  induction n with
  | zero => rfl
  | succ n ih =>
    have hrest := ih (fun k hk => hin k (by omega)) (fun k hk => ha k (by omega))
    rw [writeLanes]
    split
    · next hs =>
      rw [fbCWriteDdr8Addr32, p.fbWidenPtr_laneAddr (hin n (Nat.lt_succ_self n) hs),
        Function.update_of_ne (ha n (Nat.lt_succ_self n) hs), hrest]
    · exact hrest

end VipParams

/-! ### Runs -/

namespace DdrIn

variable {p : VipParams} {i : DdrIn p} {o : Backing} {off : ℕ}

theorem exists_of_strobed {b : BitVec 8} (h : i.strobed off = some b) :
    i.writes = true ∧ ∃ k < p.mAxiDataWidth / 8, i.wstrb.getLsbD k = true ∧
      p.byteAddr i.waddr k = 0x20000000 + off ∧ byteOf i.wdata k = b := by
  rw [strobed] at h
  split at h
  · next hw =>
    obtain ⟨k, hfind, hb⟩ := Option.map_eq_some_iff.mp h
    have hk := List.mem_range.mp (List.mem_of_find?_eq_some hfind)
    have hp := List.find?_some hfind
    rw [Bool.and_eq_true, beq_iff_eq] at hp
    exact ⟨hw, k, hk, hp.1, hp.2, hb⟩
  · exact nomatch h

theorem ne_of_not_strobed (h : i.strobed off = none) (hw : i.writes = true) {k : ℕ}
    (hk : k < p.mAxiDataWidth / 8) (hs : i.wstrb.getLsbD k = true) :
    p.byteAddr i.waddr k ≠ 0x20000000 + off := by
  intro heq
  rw [strobed, if_pos hw, Option.map_eq_none_iff, List.find?_eq_none] at h
  exact h k (List.mem_range.mpr hk) (by rw [hs, heq, beq_self_eq_true]; rfl)

end DdrIn

namespace VipParams

variable (p : VipParams) {o : Backing} {host : Space 64} {u : ℕ → DdrIn p} {off t : ℕ}

theorem host_ddrStep (pMem : BitVec 64) (s : DdrState p) (i : DdrIn p) :
    (p.ddrStep pMem s i).host
      = if i.writes then p.writeLanes pMem i (p.mAxiDataWidth / 8) s.host else s.host := by
  rw [ddrStep, DdrIn.writes]
  cases i.rstn <;> rfl

theorem rdata_ddrStep {i : DdrIn p} (pMem : BitVec 64) (s : DdrState p) (h : i.reads = true) :
    (p.ddrStep pMem s i).rdata
      = p.readLanes pMem s.host i.raddr (p.mAxiDataWidth / 8) s.tmpData := by
  rw [DdrIn.reads, Bool.and_eq_true] at h
  simp [ddrStep, h.1, h.2]

/-- One cycle gives each byte of the object what it writes there. -/
theorem host_ddrStep_addr {i : DdrIn p} (hin : i.Within o) (s : DdrState p) (hoff : off < 2 ^ 64) :
    (p.ddrStep o.base s i).host (addr o.base off)
      = (i.strobed off).getD (s.host (addr o.base off)) := by
  rw [host_ddrStep]
  cases hst : i.strobed off with
  | some b =>
    obtain ⟨hw, k, hk, hs, heq, rfl⟩ := DdrIn.exists_of_strobed hst
    rw [if_pos hw, (p.addr_objOffset (hin.2 hw k hk hs) hoff).mpr heq]
    exact p.writeLanes_of_strobe (hin.2 hw) hk hs
  | none =>
    split
    · next hw =>
      refine p.writeLanes_of_ne (hin.2 hw) ?_
      intro k hk hs heq
      exact DdrIn.ne_of_not_strobed hst hw hk hs
        ((p.addr_objOffset (hin.2 hw k hk hs) hoff).mp heq)
    · rfl

/-- A byte of the object is the one that was last written to it. -/
theorem host_state (hin : (p.ddr o.base host).Obeys (fun _ i => i.Within o) u t)
    (hoff : off < 2 ^ 64) :
    ((p.ddr o.base host).state u t).host (addr o.base off)
      = ((p.ddr o.base host).past u (fun _ i => i.strobed off) t).headD
          (host (addr o.base off)) := by
  induction t with
  | zero => rfl
  | succ t ih =>
    obtain ⟨hpast, hnow⟩ := Machine.obeys_succ.mp hin
    rw [Machine.headD_past_succ, ← ih hpast]
    exact p.host_ddrStep_addr hnow _ hoff

end VipParams

/-- **The memory of the simulation is a memory of bytes.** -/
theorem ddr_faithful (p : VipParams) (o : Backing) (host : Space 64) (u : ℕ → DdrIn p) (t : ℕ)
    (hin : (p.ddr o.base host).Obeys (fun _ i => i.Within o) u (t + 1)) :
    let s := (p.ddr o.base host).state u
    (∀ off < o.size, fbWidenPtr (fbShortenPtr (addr o.base off) o.base) o.base = addr o.base off) ∧
    ((u t).reads = true → ∀ k < p.mAxiDataWidth / 8,
      byteOf (s (t + 1)).rdata k
        = ((p.ddr o.base host).past u (fun _ i => i.strobed (p.objOffset (u t).raddr k)) t).headD
            (host (addr o.base (p.objOffset (u t).raddr k)))) ∧
    ((u t).writes = true →
      (∀ k < p.mAxiDataWidth / 8, (u t).wstrb.getLsbD k = true →
        (s (t + 1)).host (addr o.base (p.objOffset (u t).waddr k)) = byteOf (u t).wdata k) ∧
      ∀ a, (∀ k < p.mAxiDataWidth / 8, (u t).wstrb.getLsbD k = true →
          a ≠ addr o.base (p.objOffset (u t).waddr k)) →
        (s (t + 1)).host a = (s t).host a) ∧
    ((u t).writes = false → (s (t + 1)).host = (s t).host) := by
  intro s
  obtain ⟨hpast, hnow⟩ := Machine.obeys_succ.mp hin
  have hstep : s (t + 1) = p.ddrStep o.base (s t) (u t) := rfl
  have hhost := p.host_ddrStep o.base (s t) (u t)
  rw [hstep]
  refine ⟨?_, ?_, ?_, ?_⟩
  · intro off hoff
    have := o.size_le
    exact fbWidenPtr_fbShortenPtr (by omega)
  · intro hr k hk
    rw [p.rdata_ddrStep o.base (s t) hr, p.byteOf_readLanes le_rfl (hnow.1 hr) hk]
    exact p.host_state hpast (p.objOffset_lt (hnow.1 hr k hk))
  · intro hw
    rw [hhost, if_pos hw]
    refine ⟨?_, ?_⟩
    · intro k hk hs
      exact p.writeLanes_of_strobe (hnow.2 hw) hk hs
    · intro a ha
      exact p.writeLanes_of_ne (hnow.2 hw) ha
  · intro hw
    rw [hhost, hw]
    rfl

/-- Words of four bytes. -/
def fourLanes : VipParams := ⟨32, 32, 2, rfl⟩

/-- An object over the end of the address space. -/
def overTheEnd : Backing := ⟨0xFFFFFFFFFFFFFFF8, 16, by decide⟩

/-- One lane of the word at 8 is written, and the word is read. -/
def writeThenRead : ℕ → DdrIn fourLanes
  | 0 => ⟨true, false, 0, true, BitVec.ofNat _ 0x08000002, 0x44332211, 0x2⟩
  | _ => ⟨true, true, BitVec.ofNat _ 0x08000002, false, 0, 0, 0⟩

theorem overTheEnd_read :
    byteOf ((fourLanes.ddr overTheEnd.base fun _ => 7).state writeThenRead 2).rdata 1 = 0x22 := by
  have hread := (ddr_faithful fourLanes overTheEnd (fun _ => 7) writeThenRead 1 (by decide)).2.1
  exact (hread (by decide) 1 (by decide)).trans (by decide)

end AxisSystolic
