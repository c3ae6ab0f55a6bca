import AxisSystolic.Sa.Shift

/-!
# What the array hands over

Here the invariants of `Datapath.lean` and `Shift.lean` are read at the ports.
After `q` beats have been handed over, packet `q / C` is next with its beat
`q % C`.  `matmul` is what the beats of a packet are to be: beat `c` holds in
lane `r` the sum of the products `x[r] * k[c]`, wrapped to `WY` bits.

* `shifting_run`: in a run that obeys `CaptureOk` and `HandoverOk` the output
  registers hold what is left of the beats of packet `q / C` and of those after it.
* `results_run`: in a run that obeys `FirstOk` as well, they hold the results.
-/

namespace AxisSystolic

open Sync

variable {p : SaParams}

/-! ### Packets and their results -/

/-- Lane `r` of beat `c` of the result of a packet. -/
def dot (pkt : List (Beat p)) (c : Fin p.C) (r : Fin p.R) : BitVec p.WY :=
  BitVec.ofInt p.WY (pkt.map fun b => (b.sx r).toInt * (b.sk c).toInt).sum

/-- The result of a packet, one vector for each of its `C` beats. -/
def matmul (pkt : List (Beat p)) : List (Fin p.R → BitVec p.WY) := List.ofFn (dot pkt)

@[simp] theorem length_matmul (pkt : List (Beat p)) : (matmul pkt).length = p.C := by
  simp [matmul]

theorem sum_ofInt (w : ℕ) (l : List ℤ) :
    (l.map fun x => BitVec.ofInt w x).sum = BitVec.ofInt w l.sum := by
  induction l with
  | nil => rfl
  | cons x l ih => rw [List.map_cons, List.sum_cons, List.sum_cons, ih, BitVec.ofInt_add]

/-- The accumulator of the reversed column `C - 1 - c` holds column `c`. -/
theorem accum_eq_dot (h : List (Beat p)) (c : Fin p.C) (r : Fin p.R) :
    accum h r (p.C - 1 - c) = dot (current Beat.sValid Beat.sLast h).reverse c r := by
  have hterm : ∀ b : Beat p, b.termAt r (p.C - 1 - c)
      = BitVec.ofInt p.WY ((b.sx r).toInt * (b.sk c).toInt) := by
    intro b
    have hc : p.C - 1 - (p.C - 1 - (c : ℕ)) = c := by omega
    rw [Beat.termAt, Beat.prodAt, Mac.signExtend_product, Beat.xAt, Beat.kAt, hc, lane_val, lane_val]
  rw [accum, dot, List.map_reverse, List.sum_reverse, ← sum_ofInt, List.map_map]
  exact congrArg List.sum (List.map_congr_left fun b _ => hterm b)

/-! ### The values in the output registers -/

/-- The output registers hold packet `n`, shifted right by `k`, and packet
`n + 1` where it has been captured. -/
structure Results (s : AxisSa p) (h : List (Beat p)) (n k : ℕ) : Prop where
  cur : ∀ r < p.R, ∀ c < p.C, Captured h n (r + c) → k ≤ c →
    (s.pe r c).ro = resultAt h n r (c - k)
  next : ∀ r < p.R, ∀ c < p.C, Captured h (n + 1) (r + c) → (s.pe r c).ro = resultAt h (n + 1) r c

theorem results_reset : Results (AxisSa.reset p) [] 0 0 where
  cur _ _ _ _ h := absurd h not_captured_nil
  next _ _ _ _ h := absurd h not_captured_nil

section Step

variable {s : AxisSa p} {i : SaIn p} {h : List (Beat p)} {n k m r c : ℕ}

theorem ro_of_captures (hs : Shifting s h n k) (ha : Aligned s h) (hacc : Accumulated s h)
    (hcap : CaptureOk s i) (hr : r < p.R) (hc : c < p.C) (hm : m = n ∨ m = n + 1)
    (hcp : Captures s i h m (r + c)) :
    ((s.step i).pe r c).ro = resultAt (nextHistory s i h) m r c := by
  have hcopy : s.rCopy i (r + c) = true := by
    rw [hs.rCopy_iff ha hcap (diag_lt hr hc)]
    rcases hm with rfl | rfl
    · exact Or.inl hcp
    · exact Or.inr hcp
  rw [AxisSa.step_ro, if_pos hcopy, hacc.mac_y_of_arrived hr hc hcp.2,
    resultAt_next hcp.2.lt_length]

/-- Only a capture of packet `n` or `n + 1` overwrites a register. -/
theorem ro_of_not_captures (hs : Shifting s h n k) (ha : Aligned s h) (hcap : CaptureOk s i)
    (hr : r < p.R) (hc : c < p.C) (h0 : ¬ Captures s i h n (r + c))
    (h1 : ¬ Captures s i h (n + 1) (r + c)) :
    ((s.step i).pe r c).ro = if s.enShift i then s.ri r c else (s.pe r c).ro := by
  have hcopy : ¬ s.rCopy i (r + c) = true := by
    rw [hs.rCopy_iff ha hcap (diag_lt hr hc)]
    exact fun hor => hor.elim h0 h1
  rw [AxisSa.step_ro, if_neg hcopy]

theorem Results.step_hold (hres : Results s h n k) (hs : Shifting s h n k) (ha : Aligned s h)
    (hacc : Accumulated s h) (hcap : CaptureOk s i) (he : s.enShift i = false) :
    Results (s.step i) (nextHistory s i h) n k where
  cur r hr c hc hcn hk := by
    rcases captured_next.mp hcn with hold | hnew
    · rw [ro_of_not_captures hs ha hcap hr hc (fun hcp => hcp.2.not_captured hold)
        (fun hcp => by have := hcp.lt hs ha; omega), he, resultAt_next hold.lt_length]
      exact hres.cur r hr c hc hold hk
    · have hk0 : k = 0 := by
        rcases hs.arrived_cases ha hnew.1 (diag_lt hr hc) hnew.2 with ⟨_, h0⟩ | ⟨hm, _⟩
        · exact h0
        · omega
      rw [hk0, Nat.sub_zero]
      exact ro_of_captures hs ha hacc hcap hr hc (Or.inl rfl) hnew
  next r hr c hc hcn := by
    rcases captured_next.mp hcn with hold | hnew
    · rw [ro_of_not_captures hs ha hcap hr hc
        (fun hcp => hcp.2.not_captured (hold.of_le (Nat.le_succ n)))
        (fun hcp => hcp.2.not_captured hold), he, resultAt_next hold.lt_length]
      exact hres.next r hr c hc hold
    · exact ro_of_captures hs ha hacc hcap hr hc (Or.inr rfl) hnew

theorem Results.step_shift (hres : Results s h n k) (hs : Shifting s h n k) (ha : Aligned s h)
    (hacc : Accumulated s h) (hcap : CaptureOk s i) (hok : HandoverOk s i)
    (he : s.enShift i = true) : Results (s.step i) (nextHistory s i h) n (k + 1) where
  cur r hr c hc _ hk := by
    have hn := hs.mValid_iff.mp (AxisSa.enShift_iff.mp he).1
    have hdiag := diag_lt hr hc
    rw [ro_of_not_captures hs ha hcap hr hc (hs.not_captures_of_shift he hdiag)
      (fun hcp => by have := hs.captures_of_shift hok he hcp; omega), he, if_pos rfl,
      AxisSa.ri, if_neg (by omega), resultAt_next hn.lt_length,
      hres.cur r hr (c - 1) (by omega) (hn.mono (by omega)) (by omega)]
    congr 1
    omega
  next r hr c hc hcn := by
    rcases captured_next.mp hcn with hold | hnew
    · exact absurd hold (hs.next_not_captured hok he)
    · exact ro_of_captures hs ha hacc hcap hr hc (Or.inr rfl) hnew

theorem Results.step_last (hs : Shifting s h n k) (ha : Aligned s h)
    (hacc : Accumulated s h) (hcap : CaptureOk s i) (hok : HandoverOk s i)
    (he : s.enShift i = true) : Results (s.step i) (nextHistory s i h) (n + 1) 0 where
  cur r hr c hc hcn _ := by
    rcases captured_next.mp hcn with hold | hnew
    · exact absurd hold (hs.next_not_captured hok he)
    · exact ro_of_captures hs ha hacc hcap hr hc (Or.inr rfl) hnew
  next r hr c hc hcn := absurd (hcn.mono (Nat.zero_le _)) (hs.newest_next ha)

/-- The beat offered is beat `k` of packet `n`. -/
theorem Results.mData_eq (hres : Results s h n k) (hs : Shifting s h n k)
    (hv : s.mValid = true) (r : Fin p.R) : s.mData r = resultAt h n r (p.C - 1 - k) := by
  have hk := hs.k_lt
  have hCpos := p.C_pos
  have hdiag : r + (p.C - 1) ≤ p.D - 1 := by
    have := r.isLt
    rw [SaParams.D]
    omega
  exact hres.cur r r.isLt (p.C - 1) (by omega) ((hs.mValid_iff.mp hv).mono hdiag) (by omega)

end Step

/-! ### Runs -/

variable (p) (u : ℕ → SaIn p)

/-- The beats taken on the `s` side before cycle `t`. -/
def inBeats (t : ℕ) : List (Beat p) := (axisSa p).events u AxisSa.sBeat t

/-- The beats handed over on the `m` side before cycle `t`. -/
def outBeats (t : ℕ) : List (AxisSa.OutBeat p) := (axisSa p).events u AxisSa.mBeat t

variable {p u} {t : ℕ}

/-- The beats taken are those of the history. -/
theorem inBeats_eq_stream (t : ℕ) : inBeats p u t = stream Beat.sValid (history p u t) := by
  induction t with
  | zero => rfl
  | succ t ih =>
    rw [inBeats, Machine.events_succ, history_succ]
    show inBeats p u t ++ _ = _
    rw [ih]
    cases hen : ((axisSa p).state u t).enMac (u t) with
    | false => simp [AxisSa.sBeat, AxisSa.sReady, hen, nextHistory, AxisSa.moved_of_stall hen]
    | true =>
      rw [nextHistory, AxisSa.moved_of_enMac hen, Option.toList_some, List.singleton_append]
      cases hv : (u t).sValid with
      | false => simp [AxisSa.sBeat, hv, stream_cons_of_bubble]
      | true => simp [AxisSa.sBeat, AxisSa.sReady, hen, hv, stream_cons_of_valid]

/-- The packets taken are the ends of the history. -/
theorem frames_inBeats (t : ℕ) : frames Beat.sLast (inBeats p u t)
    = (packetEnds (history p u t)).map fun e => (current Beat.sValid Beat.sLast e).reverse := by
  rw [inBeats_eq_stream, frames_eq_ends]
  rfl

theorem outBeats_succ_of_hold (he : ((axisSa p).state u t).enShift (u t) = false) :
    outBeats p u (t + 1) = outBeats p u t := by
  apply Machine.events_succ_none
  rw [AxisSa.mBeat, if_neg (by rw [AxisSa.enShift] at he; simp [he])]

theorem outBeats_succ_of_shift (he : ((axisSa p).state u t).enShift (u t) = true) :
    outBeats p u (t + 1)
      = outBeats p u t ++ [⟨((axisSa p).state u t).mData, ((axisSa p).state u t).mLast⟩] := by
  apply Machine.events_succ_some
  rw [AxisSa.mBeat, if_pos (by rwa [AxisSa.enShift] at he)]

/-- The packet that is being handed over in cycle `t`, and how many of its beats
are gone. -/
def packetNow (p : SaParams) (u : ℕ → SaIn p) (t : ℕ) : ℕ := (outBeats p u t).length / p.C
def beatNow (p : SaParams) (u : ℕ → SaIn p) (t : ℕ) : ℕ := (outBeats p u t).length % p.C

theorem beatNow_lt (t : ℕ) : beatNow p u t < p.C := Nat.mod_lt _ p.C_pos

theorem packetNow_mul_add (t : ℕ) :
    p.C * packetNow p u t + beatNow p u t = (outBeats p u t).length :=
  Nat.div_add_mod _ _

theorem now_unique {n k : ℕ} (hk : k < p.C) (hq : (outBeats p u t).length = p.C * n + k) :
    packetNow p u t = n ∧ beatNow p u t = k := by
  rw [packetNow, beatNow, hq, Nat.mul_add_div p.C_pos, Nat.mul_add_mod, Nat.div_eq_of_lt hk,
    Nat.mod_eq_of_lt hk]
  exact ⟨rfl, rfl⟩

theorem now_succ_of_hold (he : ((axisSa p).state u t).enShift (u t) = false) :
    packetNow p u (t + 1) = packetNow p u t ∧ beatNow p u (t + 1) = beatNow p u t := by
  rw [packetNow, packetNow, beatNow, beatNow, outBeats_succ_of_hold he]
  exact ⟨rfl, rfl⟩

theorem now_succ_of_shift (he : ((axisSa p).state u t).enShift (u t) = true)
    (hk : beatNow p u t + 1 < p.C) :
    packetNow p u (t + 1) = packetNow p u t ∧ beatNow p u (t + 1) = beatNow p u t + 1 := by
  apply now_unique hk
  rw [outBeats_succ_of_shift he, List.length_append, ← packetNow_mul_add, List.length_singleton]
  omega

theorem now_succ_of_last (he : ((axisSa p).state u t).enShift (u t) = true)
    (hk : beatNow p u t + 1 = p.C) :
    packetNow p u (t + 1) = packetNow p u t + 1 ∧ beatNow p u (t + 1) = 0 := by
  apply now_unique p.C_pos
  rw [outBeats_succ_of_shift he, List.length_append, ← packetNow_mul_add, List.length_singleton,
    Nat.mul_add, Nat.mul_one]
  omega

/-- **One cycle.** -/
theorem shifting_succ
    (hs : Shifting ((axisSa p).state u t) (history p u t) (packetNow p u t) (beatNow p u t))
    (hcap : CaptureOk ((axisSa p).state u t) (u t))
    (hok : HandoverOk ((axisSa p).state u t) (u t)) :
    Shifting ((axisSa p).state u (t + 1)) (history p u (t + 1)) (packetNow p u (t + 1))
      (beatNow p u (t + 1)) := by
  rw [history_succ, Machine.state_succ]
  have ha := aligned_run u t
  cases he : ((axisSa p).state u t).enShift (u t) with
  | false =>
    rw [(now_succ_of_hold he).1, (now_succ_of_hold he).2]
    exact hs.step_hold ha hcap he
  | true =>
    rcases Nat.lt_or_ge (beatNow p u t + 1) p.C with hk | hk
    · rw [(now_succ_of_shift he hk).1, (now_succ_of_shift he hk).2]
      exact hs.step_shift ha hcap hok he hk
    · have hk' : beatNow p u t + 1 = p.C := by have := beatNow_lt (p := p) (u := u) t; omega
      rw [(now_succ_of_last he hk').1, (now_succ_of_last he hk').2]
      exact hs.step_last ha hcap hok he hk'

theorem results_succ
    (hres : Results ((axisSa p).state u t) (history p u t) (packetNow p u t) (beatNow p u t))
    (hs : Shifting ((axisSa p).state u t) (history p u t) (packetNow p u t) (beatNow p u t))
    (hacc : Accumulated ((axisSa p).state u t) (history p u t))
    (hcap : CaptureOk ((axisSa p).state u t) (u t))
    (hok : HandoverOk ((axisSa p).state u t) (u t)) :
    Results ((axisSa p).state u (t + 1)) (history p u (t + 1)) (packetNow p u (t + 1))
      (beatNow p u (t + 1)) := by
  rw [history_succ, Machine.state_succ]
  have ha := aligned_run u t
  cases he : ((axisSa p).state u t).enShift (u t) with
  | false =>
    rw [(now_succ_of_hold he).1, (now_succ_of_hold he).2]
    exact hres.step_hold hs ha hacc hcap he
  | true =>
    rcases Nat.lt_or_ge (beatNow p u t + 1) p.C with hk | hk
    · rw [(now_succ_of_shift he hk).1, (now_succ_of_shift he hk).2]
      exact hres.step_shift hs ha hacc hcap hok he
    · have hk' : beatNow p u t + 1 = p.C := by have := beatNow_lt (p := p) (u := u) t; omega
      rw [(now_succ_of_last he hk').1, (now_succ_of_last he hk').2]
      exact Results.step_last hs ha hacc hcap hok he

/-- The rules of the output registers. -/
def ShiftRule (s : AxisSa p) (i : SaIn p) : Prop := CaptureOk s i ∧ HandoverOk s i

/-- All rules. -/
def SaRule (s : AxisSa p) (i : SaIn p) : Prop := FirstOk s i ∧ ShiftRule s i

instance (s : AxisSa p) (i : SaIn p) : Decidable (ShiftRule s i) :=
  inferInstanceAs (Decidable (_ ∧ _))

instance (s : AxisSa p) (i : SaIn p) : Decidable (SaRule s i) :=
  inferInstanceAs (Decidable (_ ∧ _))

theorem shifting_run (hr : (axisSa p).Obeys ShiftRule u t) :
    Shifting ((axisSa p).state u t) (history p u t) (packetNow p u t) (beatNow p u t) := by
  induction t with
  | zero =>
    have h0 : packetNow p u 0 = 0 ∧ beatNow p u 0 = 0 := now_unique p.C_pos rfl
    rw [h0.1, h0.2]
    exact shifting_reset
  | succ t ih =>
    have hrule := hr t (Nat.lt_succ_self t)
    exact shifting_succ (ih (hr.mono (Nat.le_succ t))) hrule.1 hrule.2

theorem results_run (hr : (axisSa p).Obeys SaRule u t) :
    Results ((axisSa p).state u t) (history p u t) (packetNow p u t) (beatNow p u t) := by
  induction t with
  | zero =>
    have h0 : packetNow p u 0 = 0 ∧ beatNow p u 0 = 0 := now_unique p.C_pos rfl
    rw [h0.1, h0.2]
    exact results_reset
  | succ t ih =>
    have hrule := hr t (Nat.lt_succ_self t)
    have hr' := hr.mono (Nat.le_succ t)
    exact results_succ (ih hr') (shifting_run (hr'.imp fun _ _ h => h.2))
      (accumulated_run (hr'.imp fun _ _ h => h.1)) hrule.2.1 hrule.2.2

end AxisSystolic
