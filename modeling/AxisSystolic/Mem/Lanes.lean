import AxisSystolic.Mem.Word

/-!
# Lanes of a word

Lane `j` of a word, `slice w j`, is its bits from `j * w` on.  A lane can be replaced
(`setSlice`), and a word can be widened, truncated and shifted by whole lanes.

The bytes of a bus are the lanes of its data whose bit of `keep` is set (`kept`).  Those of
a bus of `n` segments are those of its segments, one after the other (`kept_mul`).
-/

namespace Mem

variable {v w j k : ℕ}

/-- Lane `k` is replaced. -/
def setSlice (w k : ℕ) (x : BitVec w) (d : BitVec v) : BitVec v :=
  d &&& ~~~((BitVec.allOnes w).setWidth v <<< (k * w)) ||| x.setWidth v <<< (k * w)

theorem getLsbD_slice {d : BitVec v} {i : ℕ} (hi : i < w) :
    (slice w j d).getLsbD i = d.getLsbD (j * w + i) := by
  rw [slice, BitVec.getLsbD_extractLsb', decide_eq_true hi, Bool.true_and]

/-- The bits of a lane are in the word. -/
theorem lane_lt {i n : ℕ} (hj : (j + 1) * w ≤ n) (hi : i < w) : j * w + i < n := by
  rw [Nat.succ_mul] at hj
  omega

theorem slice_setSlice_self {x : BitVec w} {d : BitVec v} (hk : (k + 1) * w ≤ v) :
    slice w k (setSlice w k x d) = x := by
  apply BitVec.eq_of_getLsbD_eq
  intro i hi
  have hlt := lane_lt hk hi
  have hge : ¬k * w + i < k * w := by omega
  rw [getLsbD_slice hi]
  simp [setSlice, hi, hlt, hge]

theorem slice_setSlice_of_ne {x : BitVec w} {d : BitVec v} (h : j ≠ k) :
    slice w j (setSlice w k x d) = slice w j d := by
  apply BitVec.eq_of_getLsbD_eq
  intro i hi
  rw [getLsbD_slice hi, getLsbD_slice hi]
  -- the bits of lane `j` are below those of lane `k` or past all of them
  rcases Nat.lt_or_gt_of_ne h with hlt | hgt
  · have hle : (j + 1) * w ≤ k * w := Nat.mul_le_mul_right w hlt
    have hbelow := lane_lt hle hi
    simpa [setSlice, hbelow] using BitVec.lt_of_getLsbD
  · have hle : (k + 1) * w ≤ j * w := Nat.mul_le_mul_right w hgt
    rw [Nat.succ_mul] at hle
    have hpast : w ≤ j * w + i - k * w := by omega
    simpa [setSlice, hpast] using BitVec.lt_of_getLsbD

theorem slice_setWidth {v' : ℕ} {d : BitVec v} (hj : (j + 1) * w ≤ v') :
    slice w j (d.setWidth v') = slice w j d := by
  apply BitVec.eq_of_getLsbD_eq
  intro i hi
  rw [getLsbD_slice hi, getLsbD_slice hi, BitVec.getLsbD_setWidth,
    decide_eq_true (lane_lt hj hi), Bool.true_and]

@[simp] theorem slice_zero_self (x : BitVec w) : slice w 0 x = x := by
  apply BitVec.eq_of_getLsbD_eq
  intro i hi
  rw [getLsbD_slice hi, Nat.zero_mul, Nat.zero_add]

theorem slice_ushiftRight {d : BitVec v} : slice w j (d >>> w) = slice w (j + 1) d := by
  apply BitVec.eq_of_getLsbD_eq
  intro i hi
  have hidx : w + (j * w + i) = (j + 1) * w + i := by
    rw [Nat.succ_mul]
    omega
  rw [getLsbD_slice hi, getLsbD_slice hi, BitVec.getLsbD_ushiftRight, hidx]

/-- A word is zero if its lanes are. -/
theorem eq_zero_of_slice (hw : 0 < w) {d : BitVec v} (h : ∀ j, slice w j d = 0) : d = 0 := by
  apply BitVec.eq_of_getLsbD_eq
  intro i _
  have hidx : i / w * w + i % w = i := Nat.div_add_mod' i w
  have hbit := getLsbD_slice (j := i / w) (d := d) (Nat.mod_lt i hw)
  rw [h, hidx] at hbit
  exact hbit.symm.trans (BitVec.getLsbD_zero.trans BitVec.getLsbD_zero.symm)

/-- A lane of a segment. -/
theorem slice_slice {b c : ℕ} {d : BitVec v} (hk : k < b) :
    slice c k (slice (b * c) j d) = slice c (j * b + k) d := by
  apply BitVec.eq_of_getLsbD_eq
  intro i hi
  have hin : k * c + i < b * c := lane_lt (Nat.mul_le_mul_right c hk) hi
  have hidx : j * (b * c) + (k * c + i) = (j * b + k) * c + i := by
    rw [Nat.add_mul, Nat.mul_assoc]
    omega
  rw [getLsbD_slice hi, getLsbD_slice hi, getLsbD_slice hin, hidx]

/-! ### Bytes that are kept -/

/-- The bytes of `c` bits in the first `n` lanes, as far as `keep` has them. -/
def kept (c n : ℕ) {kw : ℕ} (d : BitVec v) (keep : BitVec kw) : List (BitVec c) :=
  (List.range n).filterMap fun j => if keep.getLsbD j then some (slice c j d) else none

variable {b c n kw v' kw' : ℕ} {d : BitVec v} {d' : BitVec v'} {keep : BitVec kw}
  {keep' : BitVec kw'}

theorem kept_congr (hd : ∀ j < n, keep.getLsbD j = true → slice c j d = slice c j d')
    (hk : ∀ j < n, keep.getLsbD j = keep'.getLsbD j) : kept c n d keep = kept c n d' keep' := by
  apply List.filterMap_congr
  intro j hj
  have hj' := List.mem_range.mp hj
  rw [← hk j hj']
  cases hkj : keep.getLsbD j with
  | false => rfl
  | true => exact congrArg some (hd j hj' hkj)

theorem kept_eq_nil (hk : ∀ j < n, keep.getLsbD j = false) : kept c n d keep = [] := by
  rw [kept, List.filterMap_eq_nil_iff]
  intro j hj
  rw [hk j (List.mem_range.mp hj)]
  rfl

@[simp] theorem kept_of_no_lanes : kept c 0 d keep = [] := rfl

theorem kept_zero : kept c n d (0 : BitVec kw) = [] := kept_eq_nil fun _ _ => BitVec.getLsbD_zero

theorem kept_add (m : ℕ) : kept c (n + m) d keep
    = kept c n d keep
      ++ (List.range m).filterMap
        fun j => if keep.getLsbD (n + j) then some (slice c (n + j) d) else none := by
  rw [kept, List.range_add, List.filterMap_append, List.filterMap_map]
  rfl

/-- Segment `j` of a bus whose segments have `b` bytes. -/
theorem kept_segment : (List.range b).filterMap
      (fun k => if keep.getLsbD (j * b + k) then some (slice c (j * b + k) d) else none)
    = kept c b (slice (b * c) j d) (slice b j keep) := by
  apply List.filterMap_congr
  intro k hk
  have hk' := List.mem_range.mp hk
  rw [getLsbD_slice hk', slice_slice hk']

theorem kept_mul_succ (n : ℕ) : kept c ((n + 1) * b) d keep
    = kept c (n * b) d keep ++ kept c b (slice (b * c) n d) (slice b n keep) := by
  rw [Nat.succ_mul, kept_add, kept_segment]

/-- **The bytes of a bus are those of its segments.** -/
theorem kept_mul (n : ℕ) : kept c (n * b) d keep
    = (List.range n).flatMap fun j => kept c b (slice (b * c) j d) (slice b j keep) := by
  induction n with
  | zero =>
    rw [Nat.zero_mul]
    rfl
  | succ n ih =>
    rw [kept_mul_succ, ih, List.range_succ, List.flatMap_append, List.flatMap_singleton]

/-- The segments with nothing to keep are left out at the top. -/
theorem kept_mul_of_le {m : ℕ} (hm : m ≤ n) (hz : ∀ j, m ≤ j → j < n → slice b j keep = 0) :
    kept c (n * b) d keep = kept c (m * b) d keep := by
  induction n, hm using Nat.le_induction with
  | base => rfl
  | succ n hmn ih =>
    rw [kept_mul_succ, hz n hmn (Nat.lt_succ_self n), kept_zero, List.append_nil]
    exact ih fun j hj hjn => hz j hj (Nat.lt_succ_of_lt hjn)

/-- The lowest segment and the others, moved down. -/
theorem kept_mul_succ' (n : ℕ) : kept c ((n + 1) * b) d keep
    = kept c b d keep ++ kept c (n * b) (d >>> (b * c)) (keep >>> b) := by
  rw [kept_mul, kept_mul, List.range_succ_eq_map, List.flatMap_cons, List.flatMap_map]
  refine congrArg₂ (· ++ ·) ?_ ?_
  · apply kept_congr
    · intro k hk _
      rw [slice_slice hk, Nat.zero_mul, Nat.zero_add]
    · intro k hk
      rw [getLsbD_slice hk, Nat.zero_mul, Nat.zero_add]
  · congr 1
    funext j
    rw [slice_ushiftRight, slice_ushiftRight]

end Mem
