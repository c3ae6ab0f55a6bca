import AxisSystolic.Sync.Blocks
import Mathlib.Data.BitVec

/-!
# Bytes, words and the beats of a stream

A memory is a function from addresses to bytes, and its words are little-endian:
bit `b` of the word at `a` is bit `b % 8` of the byte at `a + b / 8`.  The data of
a stream beat is formed from its bytes in the same way, so a slice of it that
starts at a byte is a word (`slice_toData`).

A list of bytes is cut into beats of `n` bytes, the last of which may be short;
a byte it does not have reads as zero.
-/

namespace Mem

/-- The bytes of an address space. -/
abbrev Memory : Type := ℕ → BitVec 8

variable {m m' : Memory} {a b n : ℕ}

/-! ### Words -/

/-- The word of `n` bytes at `a`. -/
def word (m : Memory) (a : ℕ) : (n : ℕ) → BitVec (8 * n)
  | 0 => 0
  | n + 1 => word m (a + 1) n ++ m a

theorem getLsbD_word (m : Memory) (a n b : ℕ) :
    (word m a n).getLsbD b = (decide (b < 8 * n) && (m (a + b / 8)).getLsbD (b % 8)) := by
  induction n generalizing a b with
  | zero => simp [word]
  | succ n ih =>
    have happ : (word m a (n + 1)).getLsbD b
        = if b < 8 then (m a).getLsbD b else (word m (a + 1) n).getLsbD (b - 8) :=
      BitVec.getLsbD_append
    rw [happ]
    by_cases hb : b < 8
    · rw [if_pos hb, Nat.div_eq_of_lt hb, Nat.mod_eq_of_lt hb]
      have : b < 8 * (n + 1) := by omega
      simp [this]
    · have hdiv : a + 1 + (b - 8) / 8 = a + b / 8 := by omega
      have hmod : (b - 8) % 8 = b % 8 := by omega
      have hlt : b - 8 < 8 * n ↔ b < 8 * (n + 1) := by omega
      rw [if_neg hb, ih, hdiv, hmod, decide_eq_decide.mpr hlt]

/-- A word is determined by its bytes. -/
theorem word_congr (h : ∀ k < n, m (a + k) = m' (b + k)) : word m a n = word m' b n := by
  apply BitVec.eq_of_getLsbD_eq
  intro i hi
  rw [getLsbD_word, getLsbD_word, h (i / 8) (by omega)]

/-- Byte `k` of a value. -/
def byteOf {w : ℕ} (d : BitVec w) (k : ℕ) : BitVec 8 := d.extractLsb' (8 * k) 8

/-- Byte `k` of a value is replaced. -/
def setByte {w : ℕ} (d : BitVec w) (k : ℕ) (b : BitVec 8) : BitVec w :=
  d &&& ~~~((BitVec.allOnes 8).setWidth w <<< (8 * k)) ||| b.setWidth w <<< (8 * k)

theorem byteOf_setByte {w j k : ℕ} {d : BitVec w} {b : BitVec 8} (hk : 8 * k + 8 ≤ w) :
    byteOf (setByte d k b) j = if j = k then b else byteOf d j := by
  apply BitVec.eq_of_getLsbD_eq
  intro i hi
  simp only [byteOf, setByte, BitVec.getLsbD_extractLsb', BitVec.getLsbD_or, BitVec.getLsbD_and,
    BitVec.getLsbD_not, BitVec.getLsbD_shiftLeft, BitVec.getLsbD_setWidth, BitVec.getLsbD_allOnes]
  by_cases hj : j = k
  · subst hj
    have hlt : 8 * j + i < w := by omega
    have hlt' : i < w := by omega
    have hge : ¬8 * j + i < 8 * j := by omega
    simp [hi, hlt, hlt', hge]
  · rw [if_neg hj, BitVec.getLsbD_extractLsb']
    -- the bits of byte `j` are below those of byte `k` or past the eight of them
    rcases Nat.lt_or_ge (8 * j + i) (8 * k) with hlt | hge
    · simpa [hi, hlt] using BitVec.lt_of_getLsbD
    · have hpast : 8 ≤ 8 * j + i - 8 * k := by omega
      simpa [hi, hpast] using BitVec.lt_of_getLsbD

/-- The `n` low bytes of a value. -/
def toBytes {w : ℕ} (n : ℕ) (d : BitVec w) : List (BitVec 8) := (List.range n).map (byteOf d)

@[simp] theorem length_toBytes {w : ℕ} (n : ℕ) (d : BitVec w) : (toBytes n d).length = n := by
  simp [toBytes]

theorem word_eq_of_bytes {d : BitVec (8 * n)} (h : ∀ k < n, m (a + k) = byteOf d k) :
    word m a n = d := by
  apply BitVec.eq_of_getLsbD_eq
  intro i hi
  have hmod : 8 * (i / 8) + i % 8 = i := by omega
  rw [getLsbD_word, h (i / 8) (by omega), byteOf, BitVec.getLsbD_extractLsb', hmod]
  simp [hi, Nat.mod_lt]

theorem byteOf_word {k : ℕ} (hk : k < n) : byteOf (word m a n) k = m (a + k) := by
  apply BitVec.eq_of_getLsbD_eq
  intro i hi
  have hdiv : (8 * k + i) / 8 = k := by omega
  have hmod : (8 * k + i) % 8 = i := by omega
  have hlt : 8 * k + i < 8 * n := by omega
  rw [byteOf, BitVec.getLsbD_extractLsb', getLsbD_word, hdiv, hmod]
  simp [hi, hlt]

/-- The low bytes of a word. -/
theorem setWidth_word {n' : ℕ} (h : n' ≤ n) : (word m a n).setWidth (8 * n') = word m a n' := by
  apply BitVec.eq_of_getLsbD_eq
  intro i hi
  have hlt : i < 8 * n := by omega
  rw [BitVec.getLsbD_setWidth, getLsbD_word, getLsbD_word]
  simp [hi, hlt]

/-! ### Beats -/

/-- The bytes from `a` on, in address order. -/
def bytes (m : Memory) (a len : ℕ) : List (BitVec 8) := (List.range len).map fun k => m (a + k)

@[simp] theorem length_bytes (m : Memory) (a len : ℕ) : (bytes m a len).length = len := by
  simp [bytes]

/-- A list of bytes cut into beats of `n` bytes. -/
def beats {α : Type*} (n : ℕ) (l : List α) : List (List α) :=
  (List.range ((l.length + n - 1) / n)).map fun i => (l.drop (i * n)).take n

theorem length_beats {α : Type*} (n : ℕ) (l : List α) :
    (beats n l).length = (l.length + n - 1) / n := by
  simp [beats]

theorem length_beats_of_mul {α : Type*} {k : ℕ} (hn : 0 < n) {l : List α}
    (hl : l.length = k * n) : (beats n l).length = k := by
  rw [length_beats, hl, Nat.add_sub_assoc hn, Nat.mul_comm, Nat.mul_add_div hn,
    Nat.div_eq_of_lt (by omega), Nat.add_zero]

theorem getD_beats {α : Type*} {i : ℕ} {l : List α} (hi : i < (beats n l).length) :
    (beats n l).getD i [] = (l.drop (i * n)).take n := by
  rw [length_beats] at hi
  rw [beats, List.getD_eq_getElem?_getD, List.getElem?_map, List.getElem?_range hi]
  rfl

theorem flatten_beats {α : Type*} {n : ℕ} (hn : 0 < n) (l : List α) : (beats n l).flatten = l := by
  have htake : ∀ k, ((List.range k).map fun i => (l.drop (i * n)).take n).flatten
      = l.take (k * n) := by
    intro k
    induction k with
    | zero => simp
    | succ k ih =>
      rw [List.range_succ, List.map_append, List.flatten_append, ih, Nat.succ_mul, List.take_add]
      simp
  rw [beats, htake]
  refine List.take_of_length_le ?_
  have := Nat.lt_div_mul_add hn (a := l.length + n - 1)
  omega

/-- The data of a beat. -/
def toData (w : ℕ) (l : List (BitVec 8)) : BitVec w :=
  (word (fun k => l.getD k 0) 0 l.length).setWidth w

/-- The bits of lane `j`. -/
def slice {v : ℕ} (w j : ℕ) (d : BitVec v) : BitVec w := d.extractLsb' (j * w) w

@[simp] theorem slice_zero {v : ℕ} (w j : ℕ) : slice w j (0 : BitVec v) = 0 := by
  apply BitVec.eq_of_getLsbD_eq
  intro i _
  simp [slice]

theorem byteOf_slice {v j k : ℕ} {d : BitVec v} (hk : k < n) :
    byteOf (slice (8 * n) j d) k = byteOf d (j * n + k) := by
  apply BitVec.eq_of_getLsbD_eq
  intro i hi
  have hlt : 8 * k + i < 8 * n := by omega
  have hidx : j * (8 * n) + (8 * k + i) = 8 * (j * n + k) + i := by
    rw [Nat.mul_left_comm]
    omega
  rw [byteOf, byteOf, slice, BitVec.getLsbD_extractLsb', BitVec.getLsbD_extractLsb',
    BitVec.getLsbD_extractLsb', hidx]
  simp [hlt]

theorem getLsbD_toData (w : ℕ) (l : List (BitVec 8)) (i : ℕ) :
    (toData w l).getLsbD i = (decide (i < w) && (l.getD (i / 8) 0).getLsbD (i % 8)) := by
  rw [toData, BitVec.getLsbD_setWidth, getLsbD_word, Nat.zero_add]
  by_cases hi : i < 8 * l.length
  · simp [hi]
  · have hnone : l.length ≤ i / 8 := by omega
    rw [List.getD_eq_getElem?_getD, List.getElem?_eq_none hnone]
    simp [hi]

/-- A lane of whole bytes is a word. -/
theorem slice_toData {w j : ℕ} {l : List (BitVec 8)} (hw : (j + 1) * (8 * n) ≤ w) :
    slice (8 * n) j (toData w l) = word (fun k => l.getD k 0) (j * n) n := by
  apply BitVec.eq_of_getLsbD_eq
  intro i hi
  have hsplit : j * (8 * n) = 8 * (j * n) := Nat.mul_left_comm j 8 n
  have hdiv : (j * (8 * n) + i) / 8 = j * n + i / 8 := by omega
  have hmod : (j * (8 * n) + i) % 8 = i % 8 := by omega
  have hlt : j * (8 * n) + i < w := by
    rw [Nat.succ_mul] at hw
    omega
  rw [slice, BitVec.getLsbD_extractLsb', getLsbD_toData, getLsbD_word, hdiv, hmod]
  simp [hi, hlt]

theorem getD_beat {B i k len : ℕ} (hi : i < (beats B (bytes m a len)).length) (hk : k < B)
    (hlen : i * B + k < len) :
    ((beats B (bytes m a len)).getD i []).getD k 0 = m (a + (i * B + k)) := by
  rw [getD_beats hi, List.getD_eq_getElem?_getD, List.getElem?_take, if_pos hk,
    List.getElem?_drop, bytes, List.getElem?_map, List.getElem?_range hlen]
  rfl

/-- Lane `j` of beat `i` is a word of the memory the bytes come from. -/
theorem slice_beat {w B i j len : ℕ} (hi : i < (beats B (bytes m a len)).length)
    (hw : (j + 1) * (8 * n) ≤ w) (hB : (j + 1) * n ≤ B) (hlen : i * B + (j + 1) * n ≤ len) :
    slice (8 * n) j (toData w ((beats B (bytes m a len)).getD i []))
      = word m (a + (i * B + j * n)) n := by
  rw [Nat.succ_mul] at hB hlen
  rw [slice_toData hw]
  apply word_congr
  intro k hk
  rw [getD_beat hi (by omega) (by omega), Nat.add_assoc, Nat.add_assoc]

/-! ### Writing -/

/-- The bytes of a list are written from `a` on. -/
def writeBytes (m : Memory) (a : ℕ) (l : List (BitVec 8)) : Memory := fun x =>
  if a ≤ x ∧ x < a + l.length then l.getD (x - a) 0 else m x

theorem writeBytes_of_lt {l : List (BitVec 8)} {k : ℕ} (hk : k < l.length) :
    writeBytes m a l (a + k) = l.getD k 0 := by
  unfold writeBytes
  rw [if_pos ⟨by omega, by omega⟩, Nat.add_sub_cancel_left]

theorem writeBytes_of_not_mem {l : List (BitVec 8)} {x : ℕ}
    (hx : x < a ∨ a + l.length ≤ x) : writeBytes m a l x = m x := by
  unfold writeBytes
  rw [if_neg (by omega)]

end Mem
