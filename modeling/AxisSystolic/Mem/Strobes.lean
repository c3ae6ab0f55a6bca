import AxisSystolic.Mem.Align

/-!
# Writes with strobes

A write of a word writes the lanes whose strobe is set.  A list of bytes that begins
anywhere in a word and ends anywhere in one is written word by word, the lanes before its
beginning and after its end without a strobe (`lanesAt`), and all of it is written then
(`writeAll_lanesAt`).
-/

namespace Mem

variable {n off k j r c x : ℕ} {l l' : List (BitVec 8)} {m : Memory}

/-- The lanes of a write, those with a strobe. -/
def strobed (n : ℕ) (data : BitVec (8 * n)) (strb : BitVec n) : List (Option (BitVec 8)) :=
  (List.range n).map fun j => if strb.getLsbD j then some (byteOf data j) else none

/-- The lanes of word `k` for bytes that begin `off` bytes into word 0. -/
def lanesAt (n off : ℕ) (l : List (BitVec 8)) (k : ℕ) : List (Option (BitVec 8)) :=
  (List.range n).map fun j => if off ≤ k * n + j then l[k * n + j - off]? else none

/-- The lanes are written from `a` on. -/
def writeLanes (m : Memory) (a : ℕ) (ls : List (Option (BitVec 8))) : Memory := fun y =>
  if a ≤ y then (ls[y - a]?.getD none).getD (m y) else m y

/-- Words and the lanes that are written to them. -/
def writeAll (n : ℕ) (m : Memory) (ws : List (ℕ × List (Option (BitVec 8)))) : Memory :=
  ws.foldl (fun m w => writeLanes m (w.1 * n) w.2) m

theorem writeAll_append (n : ℕ) (m : Memory) (ws ws' : List (ℕ × List (Option (BitVec 8)))) :
    writeAll n m (ws ++ ws') = writeAll n (writeAll n m ws) ws' := List.foldl_append

/-- The lanes with a strobe are those of the bytes, if data and strobes are. -/
theorem strobed_eq {data : BitVec (8 * n)} {strb : BitVec n}
    (hstrb : ∀ j < n, strb.getLsbD j = decide (off ≤ k * n + j ∧ k * n + j < off + l.length))
    (hdata : ∀ j < n, off ≤ k * n + j → k * n + j < off + l.length →
      l[k * n + j - off]? = some (byteOf data j)) : strobed n data strb = lanesAt n off l k := by
  apply List.map_congr_left
  intro j hj
  have hj' := List.mem_range.mp hj
  rw [hstrb j hj']
  by_cases hlow : off ≤ k * n + j
  · rw [if_pos hlow]
    by_cases hhigh : k * n + j < off + l.length
    · rw [decide_eq_true ⟨hlow, hhigh⟩, if_pos rfl, hdata j hj' hlow hhigh]
    · rw [decide_eq_false (fun h => hhigh h.2), if_neg Bool.false_ne_true,
        List.getElem?_eq_none (by omega)]
  · rw [if_neg hlow, decide_eq_false (fun h => hlow h.1), if_neg Bool.false_ne_true]

/-- Bytes behind a word do not change its lanes. -/
theorem lanesAt_congr (h : ∀ y < (k + 1) * n - off, l[y]? = l'[y]?) :
    lanesAt n off l k = lanesAt n off l' k := by
  apply List.map_congr_left
  intro j hj
  have hj' := List.mem_range.mp hj
  rw [Nat.succ_mul] at h
  by_cases hlow : off ≤ k * n + j
  · rw [if_pos hlow, if_pos hlow, h _ (by omega)]
  · rw [if_neg hlow, if_neg hlow]

/-- Behind the bytes there is nothing to write. -/
theorem lanesAt_of_le (h : off + l.length ≤ k * n) :
    lanesAt n off l k = (List.range n).map fun _ => none := by
  apply List.map_congr_left
  intro j _
  rw [List.getElem?_eq_none (by omega), ite_self]

theorem strobed_zero (data : BitVec (8 * n)) :
    strobed n data 0 = (List.range n).map fun _ => none := by
  apply List.map_congr_left
  intro j _
  have hbit : (0 : BitVec n).getLsbD j = false := BitVec.getLsbD_zero
  rw [hbit, if_neg Bool.false_ne_true]

/-! ### The whole of it -/

theorem writeBytes_apply (m : Memory) (a y : ℕ) (l : List (BitVec 8)) :
    writeBytes m a l y = if a ≤ y then l[y - a]?.getD (m y) else m y := by
  rw [writeBytes]
  by_cases hlow : a ≤ y
  · rw [if_pos hlow]
    by_cases hhigh : y < a + l.length
    · have hlt : y - a < l.length := by omega
      rw [if_pos ⟨hlow, hhigh⟩, List.getD_eq_getElem?_getD, List.getElem?_eq_getElem hlt]
      rfl
    · rw [if_neg (fun h => hhigh h.2), List.getElem?_eq_none (by omega)]
      rfl
  · rw [if_neg (fun h => hlow h.1), if_neg hlow]

/-- One more word is written. -/
theorem writeLanes_lanesAt (m : Memory) (x c : ℕ) (hoff : off ≤ (c + 1) * n) :
    writeLanes (writeBytes m (x * n + off) (l.take (c * n - off))) ((x + c) * n) (lanesAt n off l c)
      = writeBytes m (x * n + off) (l.take ((c + 1) * n - off)) := by
  funext y
  rw [Nat.succ_mul] at hoff ⊢
  rw [writeLanes, writeBytes_apply, writeBytes_apply, Nat.add_mul, List.getElem?_take,
    List.getElem?_take]
  by_cases hword : x * n + c * n ≤ y
  · rw [if_pos hword]
    by_cases hin : y - (x * n + c * n) < n
    · have hidx : c * n + (y - (x * n + c * n)) - off = y - (x * n + off) := by omega
      rw [lanesAt, List.getElem?_map, List.getElem?_range hin, Option.map_some, Option.getD_some,
        hidx]
      by_cases hlow : x * n + off ≤ y
      · have hbegun : off ≤ c * n + (y - (x * n + c * n)) := by omega
        have hold : ¬y - (x * n + off) < c * n - off := by omega
        have hnew : y - (x * n + off) < c * n + n - off := by omega
        rw [if_pos hbegun, if_pos hlow, if_pos hlow, if_neg hold, if_pos hnew]
        rfl
      · have hbegun : ¬off ≤ c * n + (y - (x * n + c * n)) := by omega
        rw [if_neg hbegun, if_neg hlow, if_neg hlow]
        rfl
    · have hnone : (lanesAt n off l c)[y - (x * n + c * n)]? = none :=
        List.getElem?_eq_none (by simpa [lanesAt] using Nat.le_of_not_lt hin)
      have hold : ¬y - (x * n + off) < c * n - off := by omega
      have hnew : ¬y - (x * n + off) < c * n + n - off := by omega
      rw [hnone, if_neg hold, if_neg hnew]
      rfl
  · rw [if_neg hword]
    by_cases hlow : x * n + off ≤ y
    · have hold : y - (x * n + off) < c * n - off := by omega
      have hnew : y - (x * n + off) < c * n + n - off := by omega
      rw [if_pos hlow, if_pos hlow, if_pos hold, if_pos hnew]
    · rw [if_neg hlow, if_neg hlow]

/-- **Written word by word, the bytes are written.** -/
theorem writeAll_lanesAt (m : Memory) (x : ℕ) (hoff : off < n) (hc : off + l.length ≤ c * n) :
    writeAll n m ((List.range' x c).zip ((List.range c).map (lanesAt n off l)))
      = writeBytes m (x * n + off) l := by
  have hpart : ∀ c, writeAll n m ((List.range' x c).zip ((List.range c).map (lanesAt n off l)))
      = writeBytes m (x * n + off) (l.take (c * n - off)) := by
    intro c
    induction c with
    | zero =>
      funext y
      rw [Nat.zero_mul, Nat.zero_sub, List.take_zero, writeBytes_apply]
      exact (ite_self _).symm
    | succ c ih =>
      have hle : off ≤ (c + 1) * n := by
        rw [Nat.succ_mul]
        omega
      rw [List.range'_1_concat, List.range_succ, List.map_append, List.zip_append (by simp),
        writeAll_append, ih]
      exact writeLanes_lanesAt m x c hle
  rw [hpart, List.take_of_length_le (by omega)]

end Mem
