import AxisSystolic.Sa.Stream

/-!
# The array at full speed

With `m_ready` high in every cycle a packet leaves in the `C` cycles from
`LM + LA + D` after its last beat on.  If the last beats are at least `D + C`
cycles apart (`SpacedApart`) these cycles do not meet, no rule is ever broken
and the array never stalls (`Steady`, `fullThroughput`).

Nor does it stall while it works on one packet at a time, whatever `m_ready` does
(`OneAtATime`).
-/

namespace AxisSystolic

open Sync

variable {p : SaParams} {u : ℕ → SaIn p} {t : ℕ}

/-! ### The cycles of the last beats -/

/-- The last beat of a packet is taken in cycle `T`. -/
def LastTaken (p : SaParams) (u : ℕ → SaIn p) (T : ℕ) : Prop :=
  ((axisSa p).state u T).sReady (u T) = true ∧ (u T).sValid = true ∧ (u T).sLast = true

/-- The packet whose last beat is taken in cycle `T`. -/
def packetAt (p : SaParams) (u : ℕ → SaIn p) (T : ℕ) : List (Beat p) :=
  ((frames Beat.sLast (inBeats p u (T + 1))).getLast?).getD []

theorem LastTaken.packetEnds_succ {T : ℕ} (hT : LastTaken p u T) :
    packetEnds (history p u (T + 1))
      = packetEnds (history p u T) ++ [history p u (T + 1)] := by
  have hen : ((axisSa p).state u T).enMac (u T) = true := hT.1
  have hend : ((u T).toBeat.sValid && (u T).toBeat.sLast) = true := by
    rw [hT.2.1, hT.2.2]
    rfl
  rw [history_succ, nextHistory, AxisSa.moved_of_enMac hen]
  exact ends_cons_of_end hend

theorem packetEnds_succ_of_not {T : ℕ} (hT : ¬ LastTaken p u T) :
    packetEnds (history p u (T + 1)) = packetEnds (history p u T) := by
  rw [history_succ, nextHistory]
  cases hen : ((axisSa p).state u T).enMac (u T) with
  | false => rw [AxisSa.moved_of_stall hen]; rfl
  | true =>
    rw [AxisSa.moved_of_enMac hen]
    refine ends_cons_of_not_end ?_
    by_contra hend
    have hend' : (u T).sValid = true ∧ (u T).sLast = true := by simpa using hend
    exact hT ⟨hen, hend'.1, hend'.2⟩

/-- A packet that is complete stays. -/
theorem packetEnds_getElem?_succ {m : ℕ} (hm : m < (packetEnds (history p u t)).length) :
    (packetEnds (history p u (t + 1)))[m]? = (packetEnds (history p u t))[m]? := by
  by_cases hT : LastTaken p u t
  · rw [hT.packetEnds_succ, List.getElem?_append_left hm]
  · rw [packetEnds_succ_of_not hT]

/-- Packet `m` of the history is the one whose last beat was taken after those
of `m` packets. -/
theorem packetEnds_getElem?_iff {m : ℕ} {e : List (Beat p)} :
    (packetEnds (history p u t))[m]? = some e ↔ ∃ T < t, LastTaken p u T ∧
      (packetEnds (history p u T)).length = m ∧ e = history p u (T + 1) := by
  induction t with
  | zero => simp [history, packetEnds]
  | succ t ih =>
    have hold : (∃ T < t, LastTaken p u T ∧ (packetEnds (history p u T)).length = m ∧
        e = history p u (T + 1)) → ∃ T < t + 1, LastTaken p u T ∧
        (packetEnds (history p u T)).length = m ∧ e = history p u (T + 1) := by
      rintro ⟨T, hT, hlast⟩
      exact ⟨T, Nat.lt_succ_of_lt hT, hlast⟩
    by_cases ht : LastTaken p u t
    · rw [ht.packetEnds_succ]
      refine ⟨?_, ?_⟩
      · intro he
        rcases Nat.lt_or_ge m (packetEnds (history p u t)).length with hm | hm
        · rw [List.getElem?_append_left hm] at he
          exact hold (ih.mp he)
        · have hlen := (List.getElem?_eq_some_iff.mp he).1
          rw [List.length_append, List.length_singleton] at hlen
          obtain rfl : m = (packetEnds (history p u t)).length := by omega
          rw [List.getElem?_concat_length, Option.some.injEq] at he
          exact ⟨t, Nat.lt_succ_self t, ht, rfl, he.symm⟩
      · rintro ⟨T, hT, hlast, hm, he⟩
        rcases Nat.eq_or_lt_of_le (Nat.le_of_lt_succ hT) with rfl | hlt
        · rw [← hm, he, List.getElem?_concat_length]
        · have hin := ih.mpr ⟨T, hlt, hlast, hm, he⟩
          rwa [List.getElem?_append_left (List.getElem?_eq_some_iff.mp hin).1]
    · rw [packetEnds_succ_of_not ht, ih]
      refine ⟨?_, ?_⟩
      · exact hold
      · rintro ⟨T, hT, hlast, hm⟩
        rcases Nat.eq_or_lt_of_le (Nat.le_of_lt_succ hT) with rfl | hlt
        · exact absurd hlast ht
        · exact ⟨T, hlt, hlast, hm⟩

theorem LastTaken.packetAt_eq {T : ℕ} (hT : LastTaken p u T) :
    packetAt p u T = (current Beat.sValid Beat.sLast (history p u (T + 1))).reverse := by
  rw [packetAt, frames_inBeats, hT.packetEnds_succ, List.map_append, List.map_singleton,
    List.getLast?_concat, Option.getD_some]

/-- What the array holds is as old as the run, if it never stalled. -/
theorem length_history (hen : ∀ n < t, ((axisSa p).state u n).enMac (u n) = true) :
    (history p u t).length = t := by
  induction t with
  | zero => rfl
  | succ t ih =>
    rw [history_succ, nextHistory, AxisSa.moved_of_enMac (hen t (Nat.lt_succ_self t)),
      Option.toList_some, List.singleton_append, List.length_cons,
      ih (fun n hn => hen n (by omega))]

/-- A moving cycle breaks no rule while packet `n` is alone in the output
registers. -/
theorem Shifting.saRule {s : AxisSa p} {i : SaIn p} {h : List (Beat p)} {n k : ℕ}
    (hs : Shifting s h n k) (hen : s.enMac i = true) (halone : ¬ Captured h (n + 1) 0) :
    SaRule s i := by
  refine ⟨?_, ?_, ?_⟩
  · intro hst
    rw [hen] at hst
    cases hst
  · intro hst
    rw [hen] at hst
    cases hst
  · intro _ hrv d _ hd
    have hk : k = 0 := by
      rcases (hs.rValid 0 p.D_pos).mp hrv with ⟨_, hk⟩ | hc
      · omega
      · exact absurd hc halone
    rw [← Bool.not_eq_true, hs.rLastReg d hd]
    omega

/-! ### Spaced packets -/

/-- The last beats are at least `R + 2C - 1` cycles apart. -/
def SpacedApart (p : SaParams) (u : ℕ → SaIn p) : Prop :=
  ∀ T T', T < T' → LastTaken p u T → LastTaken p u T' → T + (p.R + 2 * p.C - 1) ≤ T'

/-- The array has not stalled or broken a rule, and hands packet `n` over from
cycle `e.length + lag (D-1)` on, where `e.length - 1` is the cycle of its last
beat. -/
structure Steady (p : SaParams) (u : ℕ → SaIn p) (t : ℕ) : Prop where
  moving : ∀ n < t, ((axisSa p).state u n).enMac (u n) = true
  rules : (axisSa p).Obeys SaRule u t
  now : ∀ e, (packetEnds (history p u t))[packetNow p u t]? = some e →
    e.length + p.lag (p.D - 1) ≤ t → t = e.length + p.lag (p.D - 1) + beatNow p u t
  gone : ∀ m < packetNow p u t, ∀ e, (packetEnds (history p u t))[m]? = some e →
    e.length + p.lag (p.D - 1) + p.C ≤ t

namespace Steady

variable {a b m d : ℕ} {e e' : List (Beat p)}

theorem shifting (hs : Steady p u t) :
    Shifting ((axisSa p).state u t) (history p u t) (packetNow p u t) (beatNow p u t) :=
  shifting_run (hs.rules.imp fun _ _ h => h.2)

/-- The ends of two packets are as far apart as their last beats. -/
theorem length_add_le (hs : Steady p u t) (hsp : SpacedApart p u) (hab : a < b)
    (he : (packetEnds (history p u t))[a]? = some e)
    (he' : (packetEnds (history p u t))[b]? = some e') : e.length + (p.D + p.C) ≤ e'.length := by
  have hlt := ends_length_lt hab he he'
  obtain ⟨T, hT, hlast, _, rfl⟩ := packetEnds_getElem?_iff.mp he
  obtain ⟨T', hT', hlast', _, rfl⟩ := packetEnds_getElem?_iff.mp he'
  have hlen : ∀ T < t, (history p u (T + 1)).length = T + 1 := fun T hT =>
    length_history fun n hn => hs.moving n (by omega)
  rw [hlen T hT, hlen T' hT'] at hlt ⊢
  have := hsp T T' (by omega) hlast hlast'
  have := p.C_pos
  rw [SaParams.D]
  omega

/-- While packet `n` is handed over, packet `n + 1` is not captured. -/
theorem next_not_captured (hs : Steady p u t) (hsp : SpacedApart p u) :
    ¬ Captured (history p u t) (packetNow p u t + 1) d := by
  intro hc
  have hk := beatNow_lt (p := p) (u := u) t
  have hd := hs.shifting.newer d hc
  obtain ⟨e, he, hle⟩ := hs.shifting.started (by omega)
  obtain ⟨e', he', hle'⟩ := hc.mono (Nat.zero_le d)
  rw [length_history hs.moving] at hle hle'
  have hgap := hs.length_add_le hsp (Nat.lt_succ_self _) he he'
  have hnow := hs.now e he hle
  have hD := p.D_pos
  simp only [SaParams.lag] at *
  omega

/-- No register is full where a packet arrives. -/
theorem enMac (hs : Steady p u t) (hsp : SpacedApart p u) :
    ((axisSa p).state u t).enMac (u t) = true := by
  rw [hs.shifting.enMac_iff]
  intro d hd hav
  by_contra hrv
  have hk := beatNow_lt (p := p) (u := u) t
  obtain ⟨m, em, hem, harr⟩ := ((aligned_run u t).aValid_iff d).mp hav
  rcases (hs.shifting.rValid d hd).mp (Bool.not_eq_false _ ▸ hrv) with ⟨⟨e, he, hle⟩, hkd⟩ | hc
  · rw [length_history hs.moving] at harr hle
    have hnm : packetNow p u t < m := by
      rcases Nat.lt_trichotomy m (packetNow p u t) with hlt | rfl | hgt
      · have := ends_length_lt hlt hem he
        omega
      · rw [hem, Option.some.injEq] at he
        subst he
        omega
      · exact hgt
    have hgap := hs.length_add_le hsp hnm he hem
    have hD := p.D_pos
    have hnow := hs.now e he
    simp only [SaParams.lag] at *
    omega
  · exact hs.next_not_captured hsp hc

theorem saRule (hs : Steady p u t) (hsp : SpacedApart p u) :
    SaRule ((axisSa p).state u t) (u t) :=
  hs.shifting.saRule (hs.enMac hsp) (hs.next_not_captured hsp)

/-- A packet that is older than a cycle was already there. -/
theorem getElem?_of_length_le (hs : Steady p u t) (hsp : SpacedApart p u)
    (he : (packetEnds (history p u (t + 1)))[m]? = some e) (hlen : e.length ≤ t) :
    (packetEnds (history p u t))[m]? = some e := by
  by_cases hT : LastTaken p u t
  · rw [hT.packetEnds_succ] at he
    rcases Nat.lt_or_ge m (packetEnds (history p u t)).length with hm | hm
    · rwa [List.getElem?_append_left hm] at he
    · rw [List.getElem?_append_right hm] at he
      have hmem := List.mem_of_getElem? he
      rw [List.mem_singleton] at hmem
      have hlen' : (history p u (t + 1)).length = t + 1 := length_history fun n hn => by
        rcases Nat.eq_or_lt_of_le (Nat.le_of_lt_succ hn) with rfl | hlt
        · exact hs.enMac hsp
        · exact hs.moving n hlt
      rw [hmem, hlen'] at hlen
      omega
  · rwa [packetEnds_succ_of_not hT] at he

theorem succ (hs : Steady p u t) (hsp : SpacedApart p u) (hm : (u t).mReady = true) :
    Steady p u (t + 1) := by
  have hlen := length_history hs.moving
  have hpos := p.LM_pos
  have hback : ∀ {m : ℕ} {e : List (Beat p)}, (packetEnds (history p u (t + 1)))[m]? = some e →
      e.length + p.lag (p.D - 1) ≤ t + 1 → (packetEnds (history p u t))[m]? = some e := by
    intro m e he hle
    rw [SaParams.lag] at hle
    exact hs.getElem?_of_length_le hsp he (by omega)
  have hgone : ∀ m < packetNow p u t, ∀ e, (packetEnds (history p u (t + 1)))[m]? = some e →
      e.length + p.lag (p.D - 1) + p.C ≤ t + 1 := by
    intro m hmn e he
    have hlt : m < (packetEnds (history p u t)).length := (hs.shifting.older m hmn).lt_length
    rw [packetEnds_getElem?_succ hlt] at he
    have := hs.gone m hmn e he
    omega
  have hmoving : ∀ n < t + 1, ((axisSa p).state u n).enMac (u n) = true := by
    intro n hn
    rcases Nat.eq_or_lt_of_le (Nat.le_of_lt_succ hn) with rfl | hlt
    · exact hs.enMac hsp
    · exact hs.moving n hlt
  have hrules : (axisSa p).Obeys SaRule u (t + 1) := by
    intro n hn
    rcases Nat.eq_or_lt_of_le (Nat.le_of_lt_succ hn) with rfl | hlt
    · exact hs.saRule hsp
    · exact hs.rules n hlt
  have hk := beatNow_lt (p := p) (u := u) t
  cases he : ((axisSa p).state u t).enShift (u t) with
  | false =>
    obtain ⟨hn', hk'⟩ := now_succ_of_hold he
    refine ⟨hmoving, hrules, fun e hend hle => ?_, fun m hmn => ?_⟩
    · rw [hn'] at hend
      -- packet `n` was not on offer, so it arrives at the last diagonal just now
      have hnot : ¬ Captured (history p u t) (packetNow p u t) (p.D - 1) := by
        rw [← hs.shifting.mValid_iff]
        intro hv
        rw [AxisSa.enShift, hv, hm] at he
        cases he
      have hk0 : beatNow p u t = 0 := by_contra fun hk0 => hnot (hs.shifting.started hk0)
      have hlate : ¬ e.length + p.lag (p.D - 1) ≤ t := fun hle' =>
        hnot ⟨e, hback hend hle, by rwa [hlen]⟩
      rw [hk', hk0]
      omega
    · rw [hn'] at hmn
      exact hgone m hmn
  | true =>
    obtain ⟨e₀, he₀, hle₀⟩ := hs.shifting.mValid_iff.mp (AxisSa.enShift_iff.mp he).1
    rw [hlen] at hle₀
    have hnow := hs.now e₀ he₀ hle₀
    rcases Nat.lt_or_ge (beatNow p u t + 1) p.C with hkC | hkC
    · obtain ⟨hn', hk'⟩ := now_succ_of_shift he hkC
      refine ⟨hmoving, hrules, fun e hend hle => ?_, fun m hmn => ?_⟩
      · rw [hn'] at hend
        have hsame := hback hend hle
        rw [he₀, Option.some.injEq] at hsame
        subst hsame
        rw [hk']
        omega
      · rw [hn'] at hmn
        exact hgone m hmn
    · obtain ⟨hn', hk'⟩ := now_succ_of_last he (by omega)
      refine ⟨hmoving, hrules, fun e hend hle => ?_, fun m hmn e hend => ?_⟩
      · rw [hn'] at hend
        have hgap := hs.length_add_le hsp (Nat.lt_succ_self _) he₀ (hback hend hle)
        omega
      · rw [hn'] at hmn
        rcases Nat.eq_or_lt_of_le (Nat.le_of_lt_succ hmn) with rfl | hlt
        · have hlt := (List.getElem?_eq_some_iff.mp he₀).1
          rw [packetEnds_getElem?_succ hlt, he₀, Option.some.injEq] at hend
          subst hend
          omega
        · exact hgone m hlt e hend

end Steady

theorem steady_zero : Steady p u 0 where
  moving n hn := absurd hn (Nat.not_lt_zero n)
  rules n hn := absurd hn (Nat.not_lt_zero n)
  now e he _ := by simp [history, packetEnds] at he
  gone m _ e he := by simp [history, packetEnds] at he

theorem steady_run (hm : ∀ t, (u t).mReady = true) (hsp : SpacedApart p u) (t : ℕ) :
    Steady p u t := by
  induction t with
  | zero => exact steady_zero
  | succ t ih => exact ih.succ hsp (hm t)

/-! ### The cycles of the result -/

/-- In cycle `t` beat `c` of the packet with its last beat in cycle `T` is due. -/
def DueAt (p : SaParams) (T c t : ℕ) : Prop := t = T + p.LM + p.LA + p.R + p.C - 1 + c

theorem Steady.now_of_due (hs : Steady p u t) (hsp : SpacedApart p u) {T c : ℕ}
    (hT : LastTaken p u T) (hc : c < p.C) (hdue : DueAt p T c t) :
    (packetEnds (history p u t))[packetNow p u t]? = some (history p u (T + 1)) ∧
      Captured (history p u t) (packetNow p u t) (p.D - 1) ∧ beatNow p u t = c := by
  have hR := p.R_pos
  have hCpos := p.C_pos
  have hlen := length_history hs.moving
  have hTt : T < t := by
    have := p.LM_pos
    rw [DueAt] at hdue
    omega
  have hlenT : (history p u (T + 1)).length = T + 1 :=
    length_history fun n hn => hs.moving n (by omega)
  have hsum : t = (history p u (T + 1)).length + p.lag (p.D - 1) + c := by
    rw [DueAt] at hdue
    rw [hlenT, SaParams.lag, SaParams.D]
    omega
  obtain ⟨m, hm⟩ : ∃ m, (packetEnds (history p u t))[m]? = some (history p u (T + 1)) :=
    ⟨_, packetEnds_getElem?_iff.mpr ⟨T, hTt, hT, rfl, rfl⟩⟩
  have hmn : m = packetNow p u t := by
    rcases Nat.lt_trichotomy m (packetNow p u t) with hlt | heq | hgt
    · have := hs.gone m hlt _ hm
      omega
    · exact heq
    · -- packet `n` is older by `D + C` cycles, so its beats would all be gone
      obtain ⟨e, he, hlt⟩ := exists_earlier hgt hm
      have hgap := hs.length_add_le hsp hgt he hm
      have hnow := hs.now e he (by omega)
      have hk := beatNow_lt (p := p) (u := u) t
      omega
  subst hmn
  have hnow := hs.now _ hm (by omega)
  exact ⟨hm, ⟨_, hm, by omega⟩, by omega⟩

theorem Steady.mValid_iff (hs : Steady p u t) (hsp : SpacedApart p u) :
    ((axisSa p).state u t).mValid = true ↔ ∃ T c, LastTaken p u T ∧ c < p.C ∧ DueAt p T c t := by
  have hR := p.R_pos
  have hCpos := p.C_pos
  have hlen := length_history hs.moving
  refine ⟨?_, ?_⟩
  · intro hv
    obtain ⟨e, he, hle⟩ := hs.shifting.mValid_iff.mp hv
    rw [hlen] at hle
    obtain ⟨T, hT, hlast, _, rfl⟩ := packetEnds_getElem?_iff.mp he
    refine ⟨T, beatNow p u t, hlast, beatNow_lt t, ?_⟩
    have hnow := hs.now _ he hle
    rw [length_history fun n hn => hs.moving n (by omega), SaParams.lag, SaParams.D] at hnow
    rw [DueAt]
    omega
  · rintro ⟨T, c, hT, hc, hdue⟩
    exact hs.shifting.mValid_iff.mpr (hs.now_of_due hsp hT hc hdue).2.1

theorem Steady.offered_of_due (hs : Steady p u t) (hsp : SpacedApart p u) {T : ℕ} (c : Fin p.C)
    (hT : LastTaken p u T) (hdue : DueAt p T c t) :
    (((axisSa p).state u t).mLast = true ↔ (c : ℕ) + 1 = p.C) ∧
      ((axisSa p).state u t).mData = dot (packetAt p u T) c := by
  obtain ⟨he, hcap, hk⟩ := hs.now_of_due hsp hT c.isLt hdue
  have hv := hs.shifting.mValid_iff.mpr hcap
  obtain ⟨pkt, hpkt, hdata⟩ := mData_eq_dot hs.shifting (results_run hs.rules) hv
  rw [frames_inBeats, List.getElem?_map, he, Option.map_some, Option.some.injEq,
    ← hT.packetAt_eq] at hpkt
  refine ⟨by rw [hs.shifting.mLast_iff hv, hk], ?_⟩
  rw [hdata, hpkt]
  congr 1
  exact Fin.ext hk

/-- **The array at full speed.** -/
theorem fullThroughput (hm : ∀ t, (u t).mReady = true) (hsp : SpacedApart p u) (t : ℕ) :
    ((axisSa p).state u t).sReady (u t) = true ∧
    (((axisSa p).state u t).mValid = true ↔
      ∃ T c, LastTaken p u T ∧ c < p.C ∧ t = T + p.LM + p.LA + p.R + p.C - 1 + c) ∧
    ∀ T (c : Fin p.C), LastTaken p u T → t = T + p.LM + p.LA + p.R + p.C - 1 + c →
      (((axisSa p).state u t).mLast = true ↔ (c : ℕ) + 1 = p.C) ∧
        ((axisSa p).state u t).mData = dot (packetAt p u T) c := by
  have hs := steady_run hm hsp t
  exact ⟨hs.enMac hsp, hs.mValid_iff hsp, fun T c hT hdue => hs.offered_of_due hsp c hT hdue⟩

/-- A packet of one beat every `R + 2C - 1 = 4` cycles. -/
def everyFour (t : ℕ) : SaIn oneByTwo := cycle oneByTwo (t % 4 == 0) true t true

theorem everyFour_fullThroughput :
    ((axisSa oneByTwo).state everyFour 8).sReady (everyFour 8) = true ∧
    (((axisSa oneByTwo).state everyFour 8).mValid = true ↔
      ∃ T c, LastTaken oneByTwo everyFour T ∧ c < 2 ∧ 8 = T + 1 + 1 + 1 + 2 - 1 + c) ∧
    ∀ T (c : Fin 2), LastTaken oneByTwo everyFour T → 8 = T + 1 + 1 + 1 + 2 - 1 + (c : ℕ) →
      (((axisSa oneByTwo).state everyFour 8).mLast = true ↔ (c : ℕ) + 1 = 2) ∧
        ((axisSa oneByTwo).state everyFour 8).mData = dot (packetAt oneByTwo everyFour T) c := by
  refine fullThroughput (fun _ => rfl) (fun T T' hlt hT hT' => ?_) 8
  have h4 : T % 4 = 0 := by simpa [everyFour, cycle] using hT.2.1
  have h4' : T' % 4 = 0 := by simpa [everyFour, cycle] using hT'.2.1
  show T + 4 ≤ T'
  omega

/-! ### One packet at a time -/

/-- The packets taken before cycle `t`. -/
def packetsTaken (p : SaParams) (u : ℕ → SaIn p) (t : ℕ) : ℕ :=
  (frames Beat.sLast (inBeats p u t)).length

theorem length_packetEnds (t : ℕ) :
    (packetEnds (history p u t)).length = packetsTaken p u t := by
  rw [packetsTaken, frames_inBeats, List.length_map]

/-- No packet is complete before the packet before it has been handed over. -/
def OneAtATime (p : SaParams) (u : ℕ → SaIn p) : Prop :=
  ∀ t, packetsTaken p u t ≤ packetNow p u t + 1

namespace OneAtATime

variable {m d : ℕ}

theorem le_packetNow (hone : OneAtATime p u) (hm : m < (packetEnds (history p u t)).length) :
    m ≤ packetNow p u t := by
  have := hone t
  rw [← length_packetEnds] at this
  omega

theorem next_not_captured (hone : OneAtATime p u) :
    ¬ Captured (history p u t) (packetNow p u t + 1) d := by
  intro hc
  have := hone.le_packetNow hc.lt_length
  omega

theorem enMac (hone : OneAtATime p u) (hr : (axisSa p).Obeys SaRule u t) :
    ((axisSa p).state u t).enMac (u t) = true := by
  have hs := shifting_run (hr.imp fun _ _ h => h.2)
  rw [hs.enMac_iff]
  intro d hd hav
  by_contra hrv
  obtain ⟨m, harr⟩ := ((aligned_run u t).aValid_iff d).mp hav
  rcases (hs.rValid d hd).mp (Bool.not_eq_false _ ▸ hrv) with ⟨hc, _⟩ | hc
  · rcases Nat.eq_or_lt_of_le (hone.le_packetNow harr.lt_length) with rfl | hlt
    · exact harr.not_captured hc
    · exact harr.not_captured ((hs.older m hlt).mono (by omega))
  · exact hone.next_not_captured hc

theorem obeys (hone : OneAtATime p u) (t : ℕ) : (axisSa p).Obeys SaRule u t := by
  induction t with
  | zero => exact fun n hn => absurd hn (Nat.not_lt_zero n)
  | succ t ih =>
    exact Machine.obeys_succ.mpr ⟨ih, (shifting_run (ih.imp fun _ _ h => h.2)).saRule
      (hone.enMac ih) hone.next_not_captured⟩

theorem moving (hone : OneAtATime p u) (t : ℕ) : ((axisSa p).state u t).enMac (u t) = true :=
  hone.enMac (hone.obeys t)

theorem shifting (hone : OneAtATime p u) (t : ℕ) :
    Shifting ((axisSa p).state u t) (history p u t) (packetNow p u t) (beatNow p u t) :=
  shifting_run ((hone.obeys t).imp fun _ _ h => h.2)

/-- The next result is on offer from `LM + LA + R + C - 1` cycles after the last
beat of its packet on. -/
theorem mValid_iff (hone : OneAtATime p u) : ((axisSa p).state u t).mValid = true ↔
    ∃ T, LastTaken p u T ∧ packetsTaken p u T = packetNow p u t ∧
      T + p.LM + p.LA + p.R + p.C - 1 ≤ t := by
  have hR := p.R_pos
  have hCpos := p.C_pos
  have hLM := p.LM_pos
  have hlen : ∀ T, (history p u T).length = T := fun T => length_history fun n _ => hone.moving n
  rw [(hone.shifting t).mValid_iff]
  refine ⟨?_, ?_⟩
  · rintro ⟨e, he, hle⟩
    obtain ⟨T, _, hlast, hm, rfl⟩ := packetEnds_getElem?_iff.mp he
    refine ⟨T, hlast, by rw [← length_packetEnds, hm], ?_⟩
    rw [hlen, hlen, SaParams.lag, SaParams.D] at hle
    omega
  · rintro ⟨T, hlast, hm, hle⟩
    refine ⟨history p u (T + 1), packetEnds_getElem?_iff.mpr ⟨T, by omega, hlast, ?_, rfl⟩, ?_⟩
    · rw [length_packetEnds, hm]
    · rw [hlen, hlen, SaParams.lag, SaParams.D]
      omega

end OneAtATime

end AxisSystolic
