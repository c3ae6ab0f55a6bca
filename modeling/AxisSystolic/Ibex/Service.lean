import AxisSystolic.Ibex.SaxiToHost
import AxisSystolic.Sync.Blocks

/-!
# What a burst does on the ports of the bridge

The service of a burst is a list of port events (`Service.events`): for each beat
of a read the access granted by the host, its response and the R handshake, for
each beat of a write the W handshake, the access and its response, and the B
response after the last.
-/

namespace AxisSystolic

open Sync

variable {p : SaxiParams}

/-- An accepted burst of `len + 1` beats. -/
structure Burst (p : SaxiParams) where
  id : BitVec p.axiIdWidth
  addr : BitVec 32
  len : BitVec 8
deriving DecidableEq

inductive BurstCmd (p : SaxiParams) where
  | read (b : Burst p)
  | write (b : Burst p)
deriving DecidableEq

structure WBeat where
  data : BitVec 32
  strb : BitVec 4
deriving DecidableEq

structure HostAccess where
  addr : BitVec 32
  we : Bool
  be : BitVec 4
  wdata : BitVec 32
deriving DecidableEq

structure HostRsp where
  rdata : BitVec 32
  err : Bool
deriving DecidableEq

structure RBeat (p : SaxiParams) where
  id : BitVec p.axiIdWidth
  data : BitVec 32
  resp : BitVec 2
  last : Bool
deriving DecidableEq

structure BResp (p : SaxiParams) where
  id : BitVec p.axiIdWidth
  resp : BitVec 2
deriving DecidableEq

/-- What happens on a port: a W handshake, an access granted by the host, a
response of the host, an R handshake, a B response that is raised. -/
inductive PortEvent (p : SaxiParams) where
  | w (d : WBeat)
  | gnt (a : HostAccess)
  | rsp (r : HostRsp)
  | r (x : RBeat p)
  | b (x : BResp p)
deriving DecidableEq

def PortEvent.isGnt : PortEvent p → Bool
  | .gnt _ => true
  | _ => false

def PortEvent.isRsp : PortEvent p → Bool
  | .rsp _ => true
  | _ => false

/-! ### Services -/

namespace Burst

variable (b : Burst p)

/-- The address of beat `n`. -/
def beatAddr (n : ℕ) : BitVec 32 := b.addr + 4 * BitVec.ofNat 32 n

/-- An error of the host is reported from its beat to the end of the burst. -/
def respOf (err : Bool) : BitVec 2 := if err then respSlverr else respOkay

/-- The beat of a read that gets the response `r`, those before it `rs`. -/
def readBeat (rs : List HostRsp) (r : HostRsp) : List (PortEvent p) :=
  [.gnt ⟨b.beatAddr rs.length, false, 0xF, 0⟩, .rsp r,
    .r ⟨b.id, r.rdata, respOf ((rs ++ [r]).any HostRsp.err), decide (rs.length = b.len.toNat)⟩]

/-- The beat of a write with data `d` that gets the response `r`. -/
def writeBeat (ds : List (WBeat × HostRsp)) : WBeat × HostRsp → List (PortEvent p)
  | (d, r) => [.w d, .gnt ⟨b.beatAddr ds.length, true, d.strb, d.data⟩, .rsp r]

theorem beatAddr_zero : b.beatAddr 0 = b.addr := by simp [beatAddr]

theorem beatAddr_succ (n : ℕ) : nextAddr (b.beatAddr n) = b.beatAddr (n + 1) := by
  rw [nextAddr, beatAddr, beatAddr, BitVec.ofNat_add, BitVec.mul_add, BitVec.add_assoc]
  rfl

/-- Every access of a read is answered before the next. -/
theorem countP_readBeats (rs : List HostRsp) :
    (blocks b.readBeat rs).countP PortEvent.isGnt =
      (blocks b.readBeat rs).countP PortEvent.isRsp :=
  countP_blocks (P := PortEvent.isGnt) (Q := PortEvent.isRsp) (fun _ _ => rfl) rs

theorem countP_writeBeats (ds : List (WBeat × HostRsp)) :
    (blocks b.writeBeat ds).countP PortEvent.isGnt =
      (blocks b.writeBeat ds).countP PortEvent.isRsp :=
  countP_blocks (P := PortEvent.isGnt) (Q := PortEvent.isRsp) (fun _ _ => rfl) ds

end Burst

/-- A burst that has been served: a read with its responses, a write with its data
and responses. -/
inductive Service (p : SaxiParams) where
  | read (b : Burst p) (rs : List HostRsp) (h : rs.length = b.len.toNat + 1)
  | write (b : Burst p) (ds : List (WBeat × HostRsp)) (h : ds.length = b.len.toNat + 1)

namespace Service

def cmd : Service p → BurstCmd p
  | read b _ _ => .read b
  | write b _ _ => .write b

/-- What is seen on the ports. -/
def events : Service p → List (PortEvent p)
  | read b rs _ => blocks b.readBeat rs
  | write b ds _ => blocks b.writeBeat ds ++ [.b ⟨b.id, Burst.respOf (ds.any (·.2.err))⟩]

theorem countP_events (v : Service p) :
    v.events.countP PortEvent.isGnt = v.events.countP PortEvent.isRsp := by
  cases v with
  | read b rs _ => exact b.countP_readBeats rs
  | write b ds _ =>
    rw [events, List.countP_append, List.countP_append, b.countP_writeBeats]
    rfl

end Service

/-! ### Runs -/

namespace SaxiToHost

variable (s : SaxiToHost p) (i : SaxiIn p)

/-- The bursts that are accepted, in the order of their service. -/
def accepts : List (BurstCmd p) :=
  (if s.awOk i then [.write ⟨i.awid, i.awaddr.setWidth 32, i.awlen⟩] else []) ++
    if s.arOk i then [.read ⟨i.arid, i.araddr.setWidth 32, i.arlen⟩] else []

/-- What happens on the ports. -/
def portEvents : List (PortEvent p) :=
  (if s.wHs i then [.w ⟨i.wdata, i.wstrb⟩] else []) ++
    ((if s.dataReq && i.dataGnt then [.gnt ⟨s.dataAddr, s.dataWe, s.dataBe, s.dataWdata⟩]
      else []) ++
    ((if i.dataRvalid then [.rsp ⟨i.dataRdata, i.dataErr⟩] else []) ++
    ((if s.rHs i then [.r ⟨s.rid, s.rdata, s.rresp, s.rlast⟩] else []) ++
    if !s.bvalid && (s.step i).bvalid then [.b ⟨(s.step i).bid, (s.step i).bresp⟩] else [])))

/-- No burst of 256 beats is accepted. -/
def LenOk : Prop := (s.arOk i = true → i.arlen ≠ 255) ∧ (s.awOk i = true → i.awlen ≠ 255)

instance : Decidable (s.LenOk i) := inferInstanceAs (Decidable (_ ∧ _))

/-- No burst is accepted and not finished. -/
def free : Bool := !s.rdBusy && !s.wrBusy

/-- Nothing holds up the engine. -/
def goes : Bool :=
  match s.engState with
  | .idle => true
  | .rActive => true
  | .wActive => s.wrDataValid || i.wvalid
  | .issue => i.dataGnt
  | .waitRsp => if !s.curIsWrite && s.rvalid then i.rready else i.dataRvalid

end SaxiToHost

section Run

variable (p : SaxiParams) (u : ℕ → SaxiIn p)

def accepted (t : ℕ) : List (BurstCmd p) := (saxiToHost p).trace u SaxiToHost.accepts t

def portTrace (t : ℕ) : List (PortEvent p) := (saxiToHost p).trace u SaxiToHost.portEvents t

/-- The accesses that the host has granted and not answered. -/
def unanswered (t : ℕ) : ℕ :=
  (portTrace p u t).countP PortEvent.isGnt - (portTrace p u t).countP PortEvent.isRsp

/-- The host answers only what it has granted in an earlier cycle. -/
def HostAnswers : Prop := ∀ n, (u n).dataRvalid = true → 0 < unanswered p u n

/-- The engine is not held up for ever. -/
def Goes : Prop := ∀ n, ∃ k, n ≤ k ∧ ((saxiToHost p).state u k).goes (u k) = true

end Run

end AxisSystolic
