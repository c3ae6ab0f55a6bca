import AxisSystolic.Dma.Controller
import AxisSystolic.Mem.Layout
import AxisSystolic.Top.Top

/-!
# The memory of the firmware (`config.py`, `firmware.h`, `top_axi.v`)

The shape of a matrix is written down three times: in the members of
`Memory_st`, in the byte counts of `run` and in the widths of the streams.  The
lane width `WA` of the stream `s_a` is a parameter of `top` that `config.py` does
not set.
-/

namespace AxisSystolic

open Mem

/-- The widths for which there are types `int8_t` to `int64_t`. -/
inductive IntWidth where
  | w8 | w16 | w32 | w64
deriving DecidableEq

namespace IntWidth

def bytes : IntWidth → ℕ
  | w8 => 1
  | w16 => 2
  | w32 => 4
  | w64 => 8

abbrev bits (w : IntWidth) : ℕ := 8 * w.bytes

theorem bytes_pos (w : IntWidth) : 0 < w.bytes := by
  cases w <;> decide

end IntWidth

/-- The arguments of `config.py` that shape the matrices. -/
structure Config where
  R : ℕ
  C : ℕ
  K : ℕ
  WK : IntWidth
  WX : IntWidth
  WY : IntWidth
  R_pos : 1 ≤ R
  C_pos : 1 ≤ C
  K_pos : 1 ≤ K

namespace Config

variable (cfg : Config)

/-! ### `Memory_st` -/

/-- `sizeof(mp->k)` and so on. -/
def sizeofK : ℕ := cfg.K * (cfg.C * cfg.WK.bytes)
def sizeofX : ℕ := cfg.K * (cfg.R * cfg.WX.bytes)
def sizeofA : ℕ := cfg.C * (cfg.R * cfg.WY.bytes)
def sizeofY : ℕ := cfg.C * (cfg.R * cfg.WY.bytes)

def memorySt : List Member :=
  [⟨cfg.sizeofK, cfg.WK.bytes⟩, ⟨cfg.sizeofX, cfg.WX.bytes⟩, ⟨cfg.sizeofA, cfg.WY.bytes⟩,
    ⟨cfg.sizeofY, cfg.WY.bytes⟩]

/-- `mp->k` and so on. -/
def ptrK (mp : ℕ) : ℕ := mp + (offsets 0 cfg.memorySt).getD 0 0
def ptrX (mp : ℕ) : ℕ := mp + (offsets 0 cfg.memorySt).getD 1 0
def ptrA (mp : ℕ) : ℕ := mp + (offsets 0 cfg.memorySt).getD 2 0
def ptrY (mp : ℕ) : ℕ := mp + (offsets 0 cfg.memorySt).getD 3 0

/-- `mp->k[i][c]` and so on. -/
def kAt (m : Memory) (mp i c : ℕ) : BitVec cfg.WK.bits :=
  element m (cfg.ptrK mp) cfg.C cfg.WK.bytes i c
def xAt (m : Memory) (mp i r : ℕ) : BitVec cfg.WX.bits :=
  element m (cfg.ptrX mp) cfg.R cfg.WX.bytes i r
def aAt (m : Memory) (mp c r : ℕ) : BitVec cfg.WY.bits :=
  element m (cfg.ptrA mp) cfg.R cfg.WY.bytes c r
def yAt (m : Memory) (mp c r : ℕ) : BitVec cfg.WY.bits :=
  element m (cfg.ptrY mp) cfg.R cfg.WY.bytes c r

/-! ### `run` -/

/-- What is programmed for a channel: the member, whose bus address is that of
`fb_shorten_ptr`, and the 32 bits of its `BYTES` register.  `ptr` is the address on
the host: the object of the firmware has at most `2 ^ 32 - FB_SIM_DDR_BASE` bytes, so
that it lies in the window of the bus, where `fb_widen_ptr` undoes `fb_shorten_ptr`. -/
structure Transfer where
  ptr : ℕ
  numBytes : BitVec 32

def run (mp : ℕ) : Channel → Transfer
  | .mm2s0 => ⟨cfg.ptrK mp, BitVec.ofNat 32 cfg.sizeofK⟩
  | .mm2s1 => ⟨cfg.ptrX mp, BitVec.ofNat 32 cfg.sizeofX⟩
  | .mm2s2 => ⟨cfg.ptrA mp, BitVec.ofNat 32 cfg.sizeofA⟩
  | .s2mm => ⟨cfg.ptrY mp, BitVec.ofNat 32 cfg.sizeofY⟩

/-- What the engine of a channel reads. -/
def streamed (m : Memory) (mp : ℕ) (c : Channel) : List (BitVec 8) :=
  bytes m (cfg.run mp c).ptr (cfg.run mp c).numBytes.toNat

/-! ### The streams of `top` -/

/-- `WA`. -/
def WA : ℕ := 32

/-- `K_BUS_W` and so on. -/
def kBusW : ℕ := cfg.C * cfg.WK.bits
def xBusW : ℕ := cfg.R * cfg.WX.bits
def aBusW : ℕ := cfg.R * WA
def yBusW : ℕ := cfg.R * cfg.WY.bits

/-- The beats of `s_k` and so on. -/
def kBeats (m : Memory) (mp : ℕ) : List (List (BitVec 8)) :=
  beats (cfg.kBusW / 8) (cfg.streamed m mp .mm2s0)
def xBeats (m : Memory) (mp : ℕ) : List (List (BitVec 8)) :=
  beats (cfg.xBusW / 8) (cfg.streamed m mp .mm2s1)
def aBeats (m : Memory) (mp : ℕ) : List (List (BitVec 8)) :=
  beats (cfg.aBusW / 8) (cfg.streamed m mp .mm2s2)

/-- The parameters of the array in `top`. -/
abbrev saParams : SaParams :=
  ⟨cfg.R, cfg.C, cfg.WX.bits, cfg.WK.bits, cfg.WY.bits, 1, 1, cfg.R_pos, cfg.C_pos, le_rfl, le_rfl⟩

/-- A cycle of `top` with a beat on each stream. -/
def topIn (k x a : List (BitVec 8)) : TopIn cfg.saParams WA where
  sKTvalid := true
  sKTlast := false
  sKTdata c := slice cfg.WK.bits c (toData cfg.kBusW k)
  sXTvalid := true
  sXTlast := false
  sXTdata r := slice cfg.WX.bits r (toData cfg.xBusW x)
  sATvalid := true
  sATdata r := slice WA r (toData cfg.aBusW a)
  mYTready := true

/-- The bytes of the beats of `m_y`. -/
def yBytes (y : ℕ → BitVec cfg.yBusW) : List (BitVec 8) :=
  (List.range cfg.C).flatMap fun c => toBytes (cfg.yBusW / 8) (y c)

/-- The engine of `s2mm` writes them. -/
def writeY (m : Memory) (mp : ℕ) (y : ℕ → BitVec cfg.yBusW) : Memory :=
  writeBytes m (cfg.run mp .s2mm).ptr (cfg.yBytes y)

end Config

end AxisSystolic
