import AxisSystolic.Engine.Bursts
import AxisSystolic.Top.Upsize

/-!
# What the two engines share
-/

namespace AxisSystolic

/-- The parameters of `alex_axi_dma_rd` and `alex_axi_dma_wr`. -/
structure AxiDmaParams extends EngineParams where
  tagWidth : ℕ
  side : SideParams
  axiId : ℕ

/-- `AXI_RESP_SLVERR` or `AXI_RESP_DECERR`. -/
def respError (r : BitVec 2) : Bool := r == 2 || r == 3

/-- The last response that was an error, if any. -/
def worstResp (rs : List (BitVec 2)) : BitVec 2 :=
  rs.foldl (fun a r => if respError r then r else a) 0

namespace AxiDmaParams

variable {p : AxiDmaParams}

abbrev cycleCountWidth (p : AxiDmaParams) : ℕ := 32 - p.burstSize + 1

/-- The registers `axis_id_reg` and so on after reset. -/
def sideReset (p : AxiDmaParams) : AxisSide p.side := ⟨BitVec.ofNat _ p.axiId, 0, 0⟩

theorem toNat_offset_setWidth (a : BitVec 32) :
    ((a &&& p.offsetMask).setWidth p.offsetWidth).toNat = a.toNat % p.strbWidth := by
  rw [BitVec.toNat_setWidth, EngineParams.toNat_offset]
  have hlt := Nat.mod_lt a.toNat (EngineParams.strbWidth_pos (p := p.toEngineParams))
  refine Nat.mod_eq_of_lt (Nat.lt_of_lt_of_le hlt ?_)
  unfold EngineParams.offsetWidth EngineParams.strbWidth
  split
  · exact le_rfl
  · omega

theorem toNat_cycles_setWidth {x : BitVec 32} :
    ((x >>> p.burstSize).setWidth p.cycleCountWidth).toNat = x.toNat / p.strbWidth := by
  have hk := p.burstSize_lt
  rw [BitVec.toNat_setWidth, BitVec.toNat_ushiftRight, Nat.shiftRight_eq_div_pow]
  refine Nat.mod_eq_of_lt ((Nat.div_lt_iff_lt_mul (Nat.two_pow_pos _)).mpr ?_)
  rw [AxiDmaParams.cycleCountWidth, ← Nat.pow_add]
  exact Nat.lt_of_lt_of_le x.isLt (Nat.pow_le_pow_right Nat.two_pos (by omega))

end AxiDmaParams

/-- Words of four bytes. -/
def fourBytes : AxiDmaParams := ⟨⟨2, 4, by decide, by decide, by decide⟩, 8, noSide, 0⟩

end AxisSystolic
