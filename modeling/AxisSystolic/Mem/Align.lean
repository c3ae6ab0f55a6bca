import AxisSystolic.Mem.Lanes

/-!
# Words out of step

A stream of bytes that does not begin with a word is put into words by joining each word
with the one before it and shifting them down by whole bytes (`toBytes_join`).  A word
whose lowest bytes are kept carries these (`kept_low`).

What is cut out of the bytes of some words makes beats that are known as soon as the words
they need are (`beats_eq`, `chunk_append`).
-/

namespace Mem

variable {n m k r : ℕ}

theorem take_toBytes {w : ℕ} {d : BitVec w} (hr : r ≤ n) :
    (toBytes n d).take r = toBytes r d := by
  rw [toBytes, ← List.map_take, List.take_range, Nat.min_eq_left hr, toBytes]

/-- Byte `j` of two values, the upper one over the lower one. -/
theorem byteOf_append (hi : BitVec (8 * n)) (lo : BitVec (8 * m)) (j : ℕ) :
    byteOf (hi ++ lo) j = if j < m then byteOf lo j else byteOf hi (j - m) := by
  apply BitVec.eq_of_getLsbD_eq
  intro i hi'
  rw [byteOf, BitVec.getLsbD_extractLsb', BitVec.getLsbD_append]
  by_cases hj : j < m
  · have hlt : 8 * j + i < 8 * m := by omega
    rw [if_pos hlt, if_pos hj, byteOf, BitVec.getLsbD_extractLsb']
  · have hge : ¬8 * j + i < 8 * m := by omega
    have hsub : 8 * j + i - 8 * m = 8 * (j - m) + i := by omega
    rw [if_neg hge, if_neg hj, byteOf, BitVec.getLsbD_extractLsb', hsub]

theorem toBytes_append (hi : BitVec (8 * n)) (lo : BitVec (8 * m)) :
    toBytes (m + n) (hi ++ lo) = toBytes m lo ++ toBytes n hi := by
  rw [toBytes, List.range_add, List.map_append, List.map_map]
  refine congrArg₂ _ (List.map_congr_left ?_) (List.map_congr_left ?_)
  · intro j hj
    rw [byteOf_append, if_pos (List.mem_range.mp hj)]
  · intro j _
    have hge : ¬m + j < m := by omega
    rw [Function.comp_apply, byteOf_append, if_neg hge, Nat.add_sub_cancel_left]

/-- Byte `j` of a value that has been shifted down by `k` bytes. -/
theorem byteOf_ushiftRight {w v j : ℕ} {d : BitVec w} (hj : 8 * j + 8 ≤ v) :
    byteOf ((d >>> (8 * k)).setWidth v) j = byteOf d (k + j) := by
  apply BitVec.eq_of_getLsbD_eq
  intro i hi
  have hlt : 8 * j + i < v := by omega
  have hadd : 8 * k + (8 * j + i) = 8 * (k + j) + i := by omega
  simp [byteOf, hi, hlt, hadd]

/-- **The bytes of two words, the upper one over the lower one, from byte `k` on.** -/
theorem toBytes_join (hi lo : BitVec (8 * n)) (hk : k ≤ n) :
    toBytes n (((hi ++ lo) >>> (8 * k)).setWidth (8 * n))
      = ((toBytes n lo ++ toBytes n hi).drop k).take n := by
  rw [← toBytes_append, toBytes, toBytes, ← List.map_drop, ← List.map_take]
  apply List.ext_getElem
  · simp only [List.length_map, List.length_take, List.length_drop, List.length_range]
    omega
  · intro j hj _
    simp only [List.length_map, List.length_range] at hj
    simp only [List.getElem_map, List.getElem_take, List.getElem_drop, List.getElem_range]
    exact byteOf_ushiftRight (by omega)

/-- Byte `j` of the joined words. -/
theorem byteOf_join (hi lo : BitVec (8 * n)) {j : ℕ} (hj : j < n) :
    byteOf (((hi ++ lo) >>> (8 * k)).setWidth (8 * n)) j
      = if k + j < n then byteOf lo (k + j) else byteOf hi (k + j - n) := by
  rw [byteOf_ushiftRight (by omega), byteOf_append]

theorem getLsbD_join (hi lo : BitVec n) {j : ℕ} (hj : j < n) :
    (((hi ++ lo) >>> k).setWidth n).getLsbD j
      = if k + j < n then lo.getLsbD (k + j) else hi.getLsbD (k + j - n) := by
  rw [BitVec.getLsbD_setWidth, decide_eq_true hj, Bool.true_and, BitVec.getLsbD_ushiftRight,
    BitVec.getLsbD_append]

/-- A word of which the lowest `r` bytes are kept. -/
theorem kept_of_low {v kw : ℕ} {d : BitVec v} {keep : BitVec kw}
    (h : ∀ j < r + m, keep.getLsbD j = decide (j < r)) : kept 8 (r + m) d keep = toBytes r d := by
  have hhigh : (List.range m).filterMap
      (fun j => if keep.getLsbD (r + j) then some (slice 8 (r + j) d) else none) = [] := by
    rw [List.filterMap_eq_nil_iff]
    intro j hj
    rw [h _ (Nat.add_lt_add_left (List.mem_range.mp hj) r), decide_eq_false (by omega)]
    rfl
  rw [kept_add, hhigh, List.append_nil, kept, toBytes, ← List.filterMap_eq_map]
  apply List.filterMap_congr
  intro j hj
  have hj' := List.mem_range.mp hj
  rw [h j (by omega), decide_eq_true hj', if_pos rfl, slice, Nat.mul_comm, Function.comp_apply,
    byteOf]

theorem kept_low (d : BitVec (8 * n)) (hr : r ≤ n) :
    kept 8 n d (BitVec.allOnes n >>> (n - r)) = toBytes r d := by
  obtain ⟨m, hm⟩ : ∃ m, n = r + m := ⟨n - r, by omega⟩
  have hlanes : kept 8 n d (BitVec.allOnes n >>> (n - r))
      = kept 8 (r + m) d (BitVec.allOnes n >>> (n - r)) := congrArg (kept 8 · d _) hm
  rw [hlanes]
  apply kept_of_low
  intro j _
  rw [BitVec.getLsbD_ushiftRight, BitVec.getLsbD_allOnes]
  exact decide_eq_decide.mpr (by omega)

theorem kept_allOnes (d : BitVec (8 * n)) : kept 8 n d (BitVec.allOnes n) = toBytes n d := by
  have h := kept_low d (le_refl n)
  rwa [Nat.sub_self, BitVec.ushiftRight_zero] at h

/-! ### Bytes of several words -/

/-- The bytes of words, one after the other. -/
def bytesOf (ws : List (BitVec (8 * n))) : List (BitVec 8) := ws.flatMap (toBytes n)

@[simp] theorem length_bytesOf (ws : List (BitVec (8 * n))) :
    (bytesOf ws).length = ws.length * n := by
  simp [bytesOf, List.length_flatMap]

theorem bytesOf_append (ws vs : List (BitVec (8 * n))) :
    bytesOf (ws ++ vs) = bytesOf ws ++ bytesOf vs := List.flatMap_append

@[simp] theorem bytesOf_singleton (w : BitVec (8 * n)) : bytesOf [w] = toBytes n w := by
  simp [bytesOf]

theorem bytes_add (m : Memory) (a x y : ℕ) : bytes m a (x + y) = bytes m a x ++ bytes m (a + x) y := by
  rw [bytes, bytes, bytes, List.range_add, List.map_append, List.map_map]
  refine congrArg₂ _ rfl (List.map_congr_left ?_)
  intro k _
  rw [Function.comp_apply, Nat.add_assoc]

theorem toBytes_word (m : Memory) (a n : ℕ) : toBytes n (word m a n) = bytes m a n :=
  List.map_congr_left fun _ hk => byteOf_word (List.mem_range.mp hk)

/-- The bytes of the words of a memory. -/
theorem bytesOf_words (m : Memory) (x c : ℕ) :
    bytesOf ((List.range' x c).map fun y => word m (y * n) n) = bytes m (x * n) (c * n) := by
  induction c generalizing x with
  | zero => simp [bytesOf, bytes]
  | succ c ih =>
    rw [List.range'_succ, List.map_cons, bytesOf, List.flatMap_cons, toBytes_word, ← bytesOf, ih,
      Nat.succ_mul c, Nat.add_comm (c * n), bytes_add, Nat.succ_mul]

/-- A part of the bytes from `a` on. -/
theorem take_drop_bytes {m : Memory} {a off len c : ℕ} (h : off + len ≤ c) :
    ((bytes m a c).drop off).take len = bytes m (a + off) len := by
  obtain ⟨e, rfl⟩ : ∃ e, c = off + len + e := ⟨c - (off + len), by omega⟩
  rw [bytes_add, bytes_add, List.append_assoc, List.drop_left' (length_bytes ..),
    List.take_left' (length_bytes ..)]

/-- Up to `n` bytes, `k * n` bytes behind the byte `off`. -/
def chunk {α : Type*} (n off k : ℕ) (l : List α) : List α := (l.drop (off + k * n)).take n

variable {α : Type*} {l l' : List α} {a off len : ℕ}

/-- What comes later does not change bytes that are there. -/
theorem take_drop_append (h : a + n ≤ l.length) :
    ((l ++ l').drop a).take n = (l.drop a).take n := by
  rw [List.drop_append_of_le_length (by omega), List.take_append_of_le_length]
  rw [List.length_drop]
  omega

theorem chunk_append (h : off + (k + 1) * n ≤ l.length) :
    chunk n off k (l ++ l') = chunk n off k l :=
  take_drop_append (by rw [Nat.succ_mul] at h; omega)

/-- **The beats of `len` bytes from `off` on: all but the last are full.** -/
theorem beats_eq (hr : 0 < r) (hrn : r ≤ n) (hlen : len = m * n + r) (h : off + len ≤ l.length) :
    beats n ((l.drop off).take len)
      = (List.range m).map (chunk n off · l) ++ [(l.drop (off + m * n)).take r] := by
  have hlength : ((l.drop off).take len).length = len := by
    rw [List.length_take, List.length_drop]
    omega
  have hcount : (len + n - 1) / n = m + 1 := by
    rw [hlen, show m * n + r + n - 1 = n * (m + 1) + (r - 1) by rw [Nat.mul_comm m, Nat.mul_succ]; omega,
      Nat.mul_add_div (by omega), Nat.div_eq_of_lt (by omega), Nat.add_zero]
  have hcut : ∀ i, (((l.drop off).take len).drop (i * n)).take n
      = (l.drop (off + i * n)).take (min n (len - i * n)) := by
    intro i
    rw [List.drop_take, List.take_take, List.drop_drop]
  rw [beats, hlength, hcount, List.range_succ, List.map_append, List.map_singleton, hcut]
  refine congrArg₂ _ (List.map_congr_left ?_) ?_
  · intro i hi
    have hi' := Nat.mul_le_mul_right n (Nat.succ_le_of_lt (List.mem_range.mp hi))
    rw [Nat.succ_mul] at hi'
    rw [hcut, Nat.min_eq_left (by omega), chunk]
  · rw [Nat.min_eq_right (by omega)]
    simp only [hlen, Nat.add_sub_cancel_left]

end Mem
