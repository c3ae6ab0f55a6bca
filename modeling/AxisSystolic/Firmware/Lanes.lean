import AxisSystolic.Firmware.Memory

/-!
# The matrices on the streams

Cut into beats, the bytes of `k` and of `x` give the rows of the matrices on the
lanes of `s_k` and `s_x`, and the beats of `m_y` fill `y`.  The bytes of `a` give
the rows of `a` on the lanes of `s_a` only if its elements are as wide as the
lanes (`layout_agrees_iff`): the lanes have `WA` bits, and `config.py` gives `a`
the type of the results.
-/

namespace AxisSystolic

open Mem

namespace Config

variable (cfg : Config)

/-! ### Agreement -/

/-- The firmware's matrices are what the streams carry. -/
structure Agrees (m : Memory) (mp : ℕ) : Prop where
  k_length : (cfg.kBeats m mp).length = cfg.K
  k_lane : ∀ i < cfg.K, ∀ x a c, (cfg.topIn ((cfg.kBeats m mp).getD i []) x a).sKTdata c
    = cfg.kAt m mp i c
  x_length : (cfg.xBeats m mp).length = cfg.K
  x_lane : ∀ i < cfg.K, ∀ k a r, (cfg.topIn k ((cfg.xBeats m mp).getD i []) a).sXTdata r
    = cfg.xAt m mp i r
  a_length : (cfg.aBeats m mp).length = cfg.C
  a_lane : ∀ c < cfg.C, ∀ k x r,
    Top.aDataTemp (cfg.topIn k x ((cfg.aBeats m mp).getD c [])) r = cfg.aAt m mp c r
  y_length : ∀ y, (cfg.yBytes y).length = cfg.sizeofY
  y_lane : ∀ y, ∀ c < cfg.C, ∀ r < cfg.R,
    cfg.yAt (cfg.writeY m mp y) mp c r = slice cfg.WY.bits r (y c)
  y_frame : ∀ y x, x < cfg.ptrY mp ∨ cfg.ptrY mp + cfg.sizeofY ≤ x → cfg.writeY m mp y x = m x

/-- The lanes of `s_a` have the width of the elements of `a`, or there is one
element and it fits into a lane; and the byte counts fit into their registers. -/
def Compatible : Prop :=
  (cfg.WY = .w32 ∨ cfg.R = 1 ∧ cfg.C = 1 ∧ (cfg.WY = .w8 ∨ cfg.WY = .w16)) ∧
    cfg.sizeofK < 2 ^ 32 ∧ cfg.sizeofX < 2 ^ 32 ∧ cfg.sizeofA < 2 ^ 32

instance : Decidable cfg.Compatible := inferInstanceAs (Decidable (_ ∧ _ ∧ _ ∧ _))

end Config

/-! ### Streams of rows -/

section Rows

variable {m : Memory} {a rows cols n w len : ℕ}

/-- The bytes of a matrix, all of them, are its rows. -/
theorem rows_of_exact (hcols : 0 < cols) (hn : 0 < n) (hw : cols * (8 * n) ≤ w)
    (hlen : len = rows * (cols * n)) :
    (beats (cols * n) (bytes m a len)).length = rows ∧ ∀ i < rows, ∀ j < cols,
      slice (8 * n) j (toData w ((beats (cols * n) (bytes m a len)).getD i []))
        = element m a cols n i j := by
  have hcount : (beats (cols * n) (bytes m a len)).length = rows :=
    length_beats_of_mul (Nat.mul_pos hcols hn) (by rw [length_bytes, hlen])
  refine ⟨hcount, ?_⟩
  intro i hi j hj
  have hrow : (j + 1) * n ≤ cols * n := Nat.mul_le_mul_right n hj
  have hlane : (j + 1) * (8 * n) ≤ w := (Nat.mul_le_mul_right (8 * n) hj).trans hw
  have hend : i * (cols * n) + (j + 1) * n ≤ len := by
    have hle : (i + 1) * (cols * n) ≤ rows * (cols * n) := Nat.mul_le_mul_right _ hi
    rw [Nat.succ_mul] at hle
    omega
  have haddr : i * (cols * n) + j * n = (i * cols + j) * n := by ring
  rw [slice_beat (hcount ▸ hi) hlane hrow hend, haddr]
  rfl

/-- What a beat reads where the memory is zero, or where there are no bytes. -/
theorem getD_beat_of_zero {B i k : ℕ} (h : i * B + k < len → m (a + (i * B + k)) = 0) :
    ((beats B (bytes m a len)).getD i []).getD k 0 = 0 := by
  by_cases hi : i < (beats B (bytes m a len)).length
  · rw [getD_beats hi, List.getD_eq_getElem?_getD, List.getElem?_take]
    by_cases hk : k < B
    · rw [if_pos hk, List.getElem?_drop]
      by_cases hlen : i * B + k < len
      · rw [bytes, List.getElem?_map, List.getElem?_range hlen]
        exact h hlen
      · rw [List.getElem?_eq_none (by rw [length_bytes]; omega)]
        rfl
    · rw [if_neg hk]
      rfl
  · rw [List.getD_eq_getElem?_getD, List.getD_eq_getElem?_getD,
      List.getElem?_eq_none (Nat.not_lt.mp hi)]
    rfl

/-- A memory with one byte that is not zero. -/
def oneByte (a : ℕ) : Memory := fun x => if x = a then 1 else 0

/-- Nothing of it is seen before the byte. -/
theorem toData_oneByte {b i B : ℕ} (h : a + len ≤ b) :
    toData w ((beats B (bytes (oneByte b) a len)).getD i []) = 0 := by
  apply BitVec.eq_of_getLsbD_eq
  intro t _
  have hbyte : ((beats B (bytes (oneByte b) a len)).getD i []).getD (t / 8) 0 = 0 := by
    apply getD_beat_of_zero
    intro hlen
    exact if_neg (by omega)
  rw [getLsbD_toData, hbyte]
  simp

/-- The element with the byte is not zero. -/
theorem element_oneByte_ne_zero (a cols i j : ℕ) {k : ℕ} (hk : k < n) :
    element (oneByte (a + ((i * cols + j) * n + k))) a cols n i j ≠ 0 := by
  intro h
  have hbyte := byteOf_word (m := oneByte (a + ((i * cols + j) * n + k)))
    (a := a + (i * cols + j) * n) hk
  rw [show word _ _ n = 0 from h, Nat.add_assoc] at hbyte
  simp [oneByte, byteOf] at hbyte

/-- With fewer bytes an element may be missing. -/
theorem exists_missing (hcols : 0 < cols) (hn : 0 < n) (hlen : len < rows * (cols * n)) :
    ∃ i < rows, ∃ j < cols, ∃ m : Memory, element m a cols n i j ≠ 0 ∧
      ∀ w B i', toData w ((beats B (bytes m a len)).getD i' []) = 0 := by
  have hB : 0 < cols * n := Nat.mul_pos hcols hn
  have hi : len / (cols * n) < rows := Nat.div_lt_of_lt_mul (by rwa [Nat.mul_comm])
  have hj : len % (cols * n) / n < cols :=
    Nat.div_lt_of_lt_mul (by rw [Nat.mul_comm n]; exact Nat.mod_lt _ hB)
  refine ⟨len / (cols * n), hi, len % (cols * n) / n, hj, oneByte (a + len), ?_,
    fun w B i' => toData_oneByte le_rfl⟩
  have hidx : len = (len / (cols * n) * cols + len % (cols * n) / n) * n
      + len % (cols * n) % n := by
    have h₁ := Nat.div_add_mod len (cols * n)
    have h₂ := Nat.div_add_mod (len % (cols * n)) n
    calc len = cols * n * (len / (cols * n)) + len % (cols * n) := h₁.symm
      _ = cols * n * (len / (cols * n)) + (n * (len % (cols * n) / n) + len % (cols * n) % n) := by
        rw [h₂]
      _ = _ := by ring
  have h := element_oneByte_ne_zero a cols (len / (cols * n)) (len % (cols * n) / n)
    (Nat.mod_lt (len % (cols * n)) hn)
  rwa [← hidx] at h

/-- So all bytes are needed if a row that reads as zero is zero. -/
theorem le_of_rows {B : ℕ} (hcols : 0 < cols) (hn : 0 < n)
    (h : ∀ m, ∀ i < rows, ∀ j < cols,
      (∀ w, toData w ((beats B (bytes m a len)).getD i []) = 0) → element m a cols n i j = 0) :
    rows * (cols * n) ≤ len := by
  by_contra hlt
  obtain ⟨i, hi, j, hj, m, hne, hzero⟩ := exists_missing hcols hn (Nat.not_le.mp hlt)
  exact hne (h m i hi j hj fun w => hzero w B i)

end Rows

namespace Config

variable {cfg : Config} {m : Memory} {mp : ℕ}

/-! ### `k` and `x` -/

theorem kBusW_div (cfg : Config) : cfg.kBusW / 8 = cfg.C * cfg.WK.bytes := by
  rw [kBusW, IntWidth.bits, Nat.mul_left_comm, Nat.mul_div_cancel_left _ (by decide)]

theorem xBusW_div (cfg : Config) : cfg.xBusW / 8 = cfg.R * cfg.WX.bytes := by
  rw [xBusW, IntWidth.bits, Nat.mul_left_comm, Nat.mul_div_cancel_left _ (by decide)]

theorem yBusW_div (cfg : Config) : cfg.yBusW / 8 = cfg.R * cfg.WY.bytes := by
  rw [yBusW, IntWidth.bits, Nat.mul_left_comm, Nat.mul_div_cancel_left _ (by decide)]

theorem aBusW_div (cfg : Config) : cfg.aBusW / 8 = cfg.R * 4 := by
  unfold aBusW WA
  omega

theorem kBeats_eq (m : Memory) (mp : ℕ) : cfg.kBeats m mp
    = beats (cfg.C * cfg.WK.bytes) (bytes m (cfg.ptrK mp) (cfg.sizeofK % 2 ^ 32)) := by
  rw [kBeats, kBusW_div, streamed, run, BitVec.toNat_ofNat]

theorem xBeats_eq (m : Memory) (mp : ℕ) : cfg.xBeats m mp
    = beats (cfg.R * cfg.WX.bytes) (bytes m (cfg.ptrX mp) (cfg.sizeofX % 2 ^ 32)) := by
  rw [xBeats, xBusW_div, streamed, run, BitVec.toNat_ofNat]

theorem aBeats_eq (m : Memory) (mp : ℕ) : cfg.aBeats m mp
    = beats (cfg.R * 4) (bytes m (cfg.ptrA mp) (cfg.sizeofA % 2 ^ 32)) := by
  rw [aBeats, aBusW_div, streamed, run, BitVec.toNat_ofNat]

theorem k_agrees (h : cfg.sizeofK < 2 ^ 32) (m : Memory) (mp : ℕ) :
    (cfg.kBeats m mp).length = cfg.K ∧ ∀ i < cfg.K, ∀ x a c,
      (cfg.topIn ((cfg.kBeats m mp).getD i []) x a).sKTdata c = cfg.kAt m mp i c := by
  obtain ⟨hlength, hrows⟩ := rows_of_exact (m := m) (a := cfg.ptrK mp) (w := cfg.kBusW) cfg.C_pos
    cfg.WK.bytes_pos le_rfl (Nat.mod_eq_of_lt h)
  rw [kBeats_eq]
  exact ⟨hlength, fun i hi _ _ c => hrows i hi c c.isLt⟩

theorem x_agrees (h : cfg.sizeofX < 2 ^ 32) (m : Memory) (mp : ℕ) :
    (cfg.xBeats m mp).length = cfg.K ∧ ∀ i < cfg.K, ∀ k a r,
      (cfg.topIn k ((cfg.xBeats m mp).getD i []) a).sXTdata r = cfg.xAt m mp i r := by
  obtain ⟨hlength, hrows⟩ := rows_of_exact (m := m) (a := cfg.ptrX mp) (w := cfg.xBusW) cfg.R_pos
    cfg.WX.bytes_pos le_rfl (Nat.mod_eq_of_lt h)
  rw [xBeats_eq]
  exact ⟨hlength, fun i hi _ _ r => hrows i hi r r.isLt⟩

/-- A byte count that does not fit into its register loses elements. -/
theorem sizeofK_lt (h : ∀ m mp, cfg.Agrees m mp) : cfg.sizeofK < 2 ^ 32 := by
  have hle : cfg.sizeofK ≤ cfg.sizeofK % 2 ^ 32 := by
    apply le_of_rows (a := cfg.ptrK 0) (B := cfg.C * cfg.WK.bytes) cfg.C_pos cfg.WK.bytes_pos
    intro m i hi c hc hzero
    have hlane := (h m 0).k_lane i hi [] [] ⟨c, hc⟩
    rw [kBeats_eq] at hlane
    refine hlane.symm.trans ?_
    show slice _ _ (toData _ _) = 0
    rw [hzero, slice_zero]
  exact lt_of_le_of_lt hle (Nat.mod_lt _ (by decide))

theorem sizeofX_lt (h : ∀ m mp, cfg.Agrees m mp) : cfg.sizeofX < 2 ^ 32 := by
  have hle : cfg.sizeofX ≤ cfg.sizeofX % 2 ^ 32 := by
    apply le_of_rows (a := cfg.ptrX 0) (B := cfg.R * cfg.WX.bytes) cfg.R_pos cfg.WX.bytes_pos
    intro m i hi r hr hzero
    have hlane := (h m 0).x_lane i hi [] [] ⟨r, hr⟩
    rw [xBeats_eq] at hlane
    refine hlane.symm.trans ?_
    show slice _ _ (toData _ _) = 0
    rw [hzero, slice_zero]
  exact lt_of_le_of_lt hle (Nat.mod_lt _ (by decide))

/-! ### `a` -/

/-- The adder's part of a lane of `s_a`. -/
theorem aDataTemp_eq (k x a : List (BitVec 8)) (r : Fin cfg.R) :
    Top.aDataTemp (cfg.topIn k x a) r
      = (slice (8 * 4) r (toData cfg.aBusW a)).setWidth cfg.WY.bits := rfl

theorem sizeofA_lt (h : ∀ m mp, cfg.Agrees m mp) : cfg.sizeofA < 2 ^ 32 := by
  have hle : cfg.sizeofA ≤ cfg.sizeofA % 2 ^ 32 := by
    apply le_of_rows (a := cfg.ptrA 0) (B := cfg.R * 4) cfg.R_pos cfg.WY.bytes_pos
    intro m c hc r hr hzero
    have hlane := (h m 0).a_lane c hc [] [] ⟨r, hr⟩
    rw [aBeats_eq, aDataTemp_eq] at hlane
    refine hlane.symm.trans ?_
    rw [hzero, slice_zero]
    exact BitVec.setWidth_zero _ _
  exact lt_of_le_of_lt hle (Nat.mod_lt _ (by decide))

/-- A lane carries an element if the element is at the start of it. -/
theorem aDataTemp_eq_word {l : List (BitVec 8)} {b : ℕ} (k x : List (BitVec 8)) (r : Fin cfg.R)
    (hn : cfg.WY.bytes ≤ 4) (h : ∀ t < cfg.WY.bytes, l.getD (r * 4 + t) 0 = m (b + t)) :
    Top.aDataTemp (cfg.topIn k x l) r = word m b cfg.WY.bytes := by
  have hlane : (r + 1) * (8 * 4) ≤ cfg.aBusW := Nat.mul_le_mul_right _ r.isLt
  rw [aDataTemp_eq, slice_toData hlane, setWidth_word hn]
  exact word_congr h

/-- Lanes of the width of the elements. -/
theorem a_agrees_of_w32 (h : cfg.sizeofA < 2 ^ 32) (hw : cfg.WY = .w32) (m : Memory) (mp : ℕ) :
    (cfg.aBeats m mp).length = cfg.C ∧ ∀ c < cfg.C, ∀ k x r,
      Top.aDataTemp (cfg.topIn k x ((cfg.aBeats m mp).getD c [])) r = cfg.aAt m mp c r := by
  have hbytes : cfg.WY.bytes = 4 := by rw [hw]; rfl
  have hsize : cfg.sizeofA = cfg.C * (cfg.R * 4) := by rw [sizeofA, hbytes]
  have hlength : (beats (cfg.R * 4) (bytes m (cfg.ptrA mp) cfg.sizeofA)).length = cfg.C :=
    length_beats_of_mul (Nat.mul_pos cfg.R_pos (by decide)) (by rw [length_bytes, hsize])
  rw [aBeats_eq, Nat.mod_eq_of_lt h]
  refine ⟨hlength, ?_⟩
  intro c hc k x r
  apply aDataTemp_eq_word k x r hbytes.le
  intro t ht
  have hr : (r + 1) * 4 ≤ cfg.R * 4 := Nat.mul_le_mul_right 4 r.isLt
  have hrow : (c + 1) * (cfg.R * 4) ≤ cfg.C * (cfg.R * 4) := Nat.mul_le_mul_right _ hc
  have hidx : cfg.ptrA mp + (c * (cfg.R * 4) + (r * 4 + t))
      = cfg.ptrA mp + (c * cfg.R + r) * cfg.WY.bytes + t := by
    rw [hbytes]
    ring
  rw [Nat.succ_mul] at hrow
  rw [getD_beat (hlength ▸ hc) (by omega) (by omega), hidx]

/-- One element that fits into its lane. -/
theorem a_agrees_of_single (hR : cfg.R = 1) (hC : cfg.C = 1) (hn : cfg.WY.bytes ≤ 4) (m : Memory)
    (mp : ℕ) : (cfg.aBeats m mp).length = cfg.C ∧ ∀ c < cfg.C, ∀ k x r,
      Top.aDataTemp (cfg.topIn k x ((cfg.aBeats m mp).getD c [])) r = cfg.aAt m mp c r := by
  have hpos := cfg.WY.bytes_pos
  have hsize : cfg.sizeofA = cfg.WY.bytes := by rw [sizeofA, hR, hC, Nat.one_mul, Nat.one_mul]
  have hlength : (beats 4 (bytes m (cfg.ptrA mp) cfg.WY.bytes)).length = 1 := by
    rw [length_beats, length_bytes]
    omega
  rw [aBeats_eq, hsize, Nat.mod_eq_of_lt (by omega), hR, Nat.one_mul]
  refine ⟨hlength.trans hC.symm, ?_⟩
  intro c hc k x r
  have hr : (r : ℕ) < cfg.R := r.isLt
  obtain rfl : c = 0 := by omega
  apply aDataTemp_eq_word k x r hn
  intro t ht
  have hr0 : (r : ℕ) = 0 := by omega
  rw [getD_beat (by rw [hlength]; decide) (by omega) (by omega), hr0]
  simp

/-- The number of beats fits only if there is one, or if the widths are the same. -/
theorem wY_of_count (h : (cfg.sizeofA + cfg.R * 4 - 1) / (cfg.R * 4) = cfg.C) :
    cfg.WY = .w32 ∨ cfg.C = 1 ∧ (cfg.WY = .w8 ∨ cfg.WY = .w16) := by
  have hR := cfg.R_pos
  have hC := cfg.C_pos
  have hdiv := Nat.div_add_mod (cfg.sizeofA + cfg.R * 4 - 1) (cfg.R * 4)
  have hmod := Nat.mod_lt (cfg.sizeofA + cfg.R * 4 - 1) (show 0 < cfg.R * 4 by omega)
  rw [h] at hdiv
  have hdouble : cfg.C ≠ 1 → cfg.R * 2 ≤ cfg.R * cfg.C := fun h1 =>
    Nat.mul_le_mul_left cfg.R (by omega)
  have hone : cfg.R * 1 ≤ cfg.R * cfg.C := Nat.mul_le_mul_left cfg.R hC
  have hcells : cfg.R * 4 * cfg.C = 4 * (cfg.R * cfg.C) := by ring
  have hsize : cfg.sizeofA = cfg.WY.bytes * (cfg.R * cfg.C) := by
    rw [sizeofA]
    ring
  rw [hcells, hsize] at hdiv
  rw [hsize] at hmod
  cases hw : cfg.WY with
  | w32 => exact Or.inl rfl
  | w8 =>
    rw [hw, IntWidth.bytes] at hdiv hmod
    refine Or.inr ⟨?_, Or.inl rfl⟩
    by_contra h1
    have := hdouble h1
    omega
  | w16 =>
    rw [hw, IntWidth.bytes] at hdiv hmod
    refine Or.inr ⟨?_, Or.inr rfl⟩
    by_contra h1
    have := hdouble h1
    omega
  | w64 =>
    rw [hw, IntWidth.bytes] at hdiv hmod
    omega

/-- With two elements in one beat the second is not on its lane. -/
theorem r_of_agrees (h : ∀ m mp, cfg.Agrees m mp) (hn : cfg.WY.bytes ≤ 2) : cfg.R = 1 := by
  by_contra hR
  have hpos := cfg.WY.bytes_pos
  have h1 : 1 < cfg.R := by have := cfg.R_pos; omega
  have hne := element_oneByte_ne_zero (cfg.ptrA 0) cfg.R 0 1 hpos
  have hlane := (h (oneByte (cfg.ptrA 0 + ((0 * cfg.R + 1) * cfg.WY.bytes + 0))) 0).a_lane 0
    cfg.C_pos [] [] ⟨1, h1⟩
  apply hne
  refine hlane.symm.trans ?_
  rw [aBeats_eq]
  refine (aDataTemp_eq_word (m := fun _ => 0) (b := 0) [] [] ⟨1, h1⟩ (by omega) ?_).trans ?_
  · intro t ht
    apply getD_beat_of_zero
    intro _
    exact if_neg (by show ¬ _ + (0 * _ + (1 * 4 + t)) = _; omega)
  · apply word_eq_of_bytes
    intro k _
    apply BitVec.eq_of_getLsbD_eq
    simp [byteOf]

/-! ### `y` -/

theorem length_yBytes (y : ℕ → BitVec cfg.yBusW) : (cfg.yBytes y).length = cfg.sizeofY := by
  simp [yBytes, List.length_flatMap, yBusW_div, sizeofY]

theorem getD_yBytes (y : ℕ → BitVec cfg.yBusW) {c t : ℕ} (hc : c < cfg.C)
    (ht : t < cfg.R * cfg.WY.bytes) :
    (cfg.yBytes y).getD (cfg.R * cfg.WY.bytes * c + t) 0 = byteOf (y c) t := by
  rw [List.getD_eq_getElem?_getD, yBytes, yBusW_div,
    Sync.getElem?_flatMap_block (fun c => length_toBytes _ (y c)) _ _ ht, List.getElem?_range hc,
    Option.bind_some, toBytes, List.getElem?_map, List.getElem?_range ht]
  rfl

theorem y_lane (m : Memory) (mp : ℕ) (y : ℕ → BitVec cfg.yBusW) {c r : ℕ} (hc : c < cfg.C)
    (hr : r < cfg.R) : cfg.yAt (cfg.writeY m mp y) mp c r = slice cfg.WY.bits r (y c) := by
  apply word_eq_of_bytes
  intro k hk
  have hrow : (r + 1) * cfg.WY.bytes ≤ cfg.R * cfg.WY.bytes := Nat.mul_le_mul_right _ hr
  have hidx : (c * cfg.R + r) * cfg.WY.bytes + k
      = cfg.R * cfg.WY.bytes * c + (r * cfg.WY.bytes + k) := by ring
  have hlt : (c * cfg.R + r) * cfg.WY.bytes + k < (cfg.yBytes y).length := by
    rw [length_yBytes]
    exact index_lt hc hr hk
  rw [Nat.succ_mul] at hrow
  rw [writeY, Nat.add_assoc]
  show writeBytes m (cfg.ptrY mp) _ (cfg.ptrY mp + _) = _
  rw [writeBytes_of_lt hlt, hidx, getD_yBytes y hc (by omega), byteOf_slice hk]

end Config

/-! ### Configurations -/

/-- **The firmware's matrices are what the streams carry, for every content of
the memory, exactly if the lanes of `s_a` have the width of the elements of `a`
(or there is a single one, which fits), and the byte counts fit into their
registers.**  The addresses are those of the host, for an object inside the window
of the bus. -/
theorem layout_agrees_iff (cfg : Config) : (∀ m mp, cfg.Agrees m mp) ↔ cfg.Compatible := by
  refine ⟨?_, ?_⟩
  · intro h
    have hlt := Config.sizeofA_lt h
    refine ⟨?_, Config.sizeofK_lt h, Config.sizeofX_lt h, hlt⟩
    have hcount : (cfg.sizeofA + cfg.R * 4 - 1) / (cfg.R * 4) = cfg.C := by
      have hlength := (h (fun _ => 0) 0).a_length
      rwa [Config.aBeats_eq, Nat.mod_eq_of_lt hlt, length_beats, length_bytes] at hlength
    rcases Config.wY_of_count hcount with hw | ⟨hC, hw⟩
    · exact Or.inl hw
    · have hn : cfg.WY.bytes ≤ 2 := by
        rcases hw with hw | hw <;> rw [hw] <;> decide
      exact Or.inr ⟨Config.r_of_agrees h hn, hC, hw⟩
  · rintro ⟨hw, hk, hx, ha⟩ m mp
    have haa : (cfg.aBeats m mp).length = cfg.C ∧ ∀ c < cfg.C, ∀ k x r,
        Top.aDataTemp (cfg.topIn k x ((cfg.aBeats m mp).getD c [])) r = cfg.aAt m mp c r := by
      rcases hw with hw | ⟨hR, hC, hw⟩
      · exact Config.a_agrees_of_w32 ha hw m mp
      · apply Config.a_agrees_of_single hR hC
        rcases hw with hw | hw <;> rw [hw] <;> decide
    exact {
      k_length := (Config.k_agrees hk m mp).1
      k_lane := (Config.k_agrees hk m mp).2
      x_length := (Config.x_agrees hx m mp).1
      x_lane := (Config.x_agrees hx m mp).2
      a_length := haa.1
      a_lane := haa.2
      y_length := Config.length_yBytes
      y_lane := fun y c hc r hr => Config.y_lane m mp y hc hr
      y_frame := fun y x hx => writeBytes_of_not_mem (by rwa [Config.length_yBytes]) }

/-- Results of 16 bits: the two rows of `a` come in one beat. -/
def config16 : Config := ⟨1, 2, 1, .w8, .w8, .w16, Nat.one_pos, Nat.two_pos, Nat.one_pos⟩

theorem config16_not_agrees : ¬ config16.Agrees (fun _ => 0) 0 := by
  intro h
  have hlength := h.a_length
  revert hlength
  decide

end AxisSystolic
