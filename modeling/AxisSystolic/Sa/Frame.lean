import AxisSystolic.Sa.Datapath

/-!
# Packets on their way through the array

The packets that the history `h` has completed are numbered from `0`, the
oldest.  Packet `n` reaches the accumulators of diagonal `d` a fixed number of
moves after its last beat (`Arrived h n d`, which is what `a_valid[d]` says)
and has left them behind one move later (`Captured h n d`).  These two move
along the diagonals (`captured_cons`) and in the order of the packets, so that
a packet has been captured wherever a later one arrives.
-/

namespace AxisSystolic

open Sync

variable {p : SaParams} {h : List (Beat p)} {n m d d' : ℕ}

/-- The histories at which a packet was complete, oldest first. -/
def packetEnds (h : List (Beat p)) : List (List (Beat p)) := ends Beat.sValid Beat.sLast h

/-- The moves from the end of a packet to its arrival at diagonal `d`, that
first move included. -/
def SaParams.lag (p : SaParams) (d : ℕ) : ℕ := p.LM + p.LA + d

/-- The result of packet `n` waits in the accumulators of diagonal `d`. -/
def Arrived (h : List (Beat p)) (n d : ℕ) : Prop :=
  ∃ e, (packetEnds h)[n]? = some e ∧ e.length + p.lag d = h.length + 1

/-- The array has moved on since packet `n` arrived at diagonal `d`. -/
def Captured (h : List (Beat p)) (n d : ℕ) : Prop :=
  ∃ e, (packetEnds h)[n]? = some e ∧ e.length + p.lag d ≤ h.length

/-- The result of packet `n` at the element `(r, c)`. -/
def resultAt (h : List (Beat p)) (n r c : ℕ) : BitVec p.WY := accum ((packetEnds h).getD n []) r c

theorem not_captured_nil : ¬ Captured ([] : List (Beat p)) n d := by
  rintro ⟨e, he, _⟩
  simp [packetEnds] at he

theorem Captured.lt_length (hc : Captured h n d) : n < (packetEnds h).length := by
  obtain ⟨e, he, _⟩ := hc
  exact (List.getElem?_eq_some_iff.mp he).1

theorem Arrived.lt_length (ha : Arrived h n d) : n < (packetEnds h).length := by
  obtain ⟨e, he, _⟩ := ha
  exact (List.getElem?_eq_some_iff.mp he).1

/-! ### Along the diagonals -/

theorem Captured.mono (hc : Captured h n d) (hd : d' ≤ d) : Captured h n d' := by
  obtain ⟨e, he, hle⟩ := hc
  refine ⟨e, he, ?_⟩
  rw [SaParams.lag] at hle ⊢
  omega

theorem Arrived.captured_of_lt (ha : Arrived h n d) (hd : d' < d) : Captured h n d' := by
  obtain ⟨e, he, hle⟩ := ha
  refine ⟨e, he, ?_⟩
  rw [SaParams.lag] at hle ⊢
  omega

theorem Arrived.not_captured (ha : Arrived h n d) : ¬ Captured h n d := by
  rintro ⟨e, he, hle⟩
  obtain ⟨e', he', hle'⟩ := ha
  rw [he, Option.some.injEq] at he'
  subst he'
  omega

/-! ### In the order of the packets -/

theorem exists_earlier (hmn : m < n) {e : List (Beat p)} (he : (packetEnds h)[n]? = some e) :
    ∃ e', (packetEnds h)[m]? = some e' ∧ e'.length < e.length := by
  have hlt : m < (packetEnds h).length := lt_trans hmn (List.getElem?_eq_some_iff.mp he).1
  have he' : (packetEnds h)[m]? = some (packetEnds h)[m] := List.getElem?_eq_getElem hlt
  exact ⟨_, he', ends_length_lt hmn he' he⟩

theorem Captured.of_le (hc : Captured h n d) (hmn : m ≤ n) : Captured h m d := by
  rcases Nat.eq_or_lt_of_le hmn with rfl | hlt
  · exact hc
  · obtain ⟨e, he, hle⟩ := hc
    obtain ⟨e', he', hlen⟩ := exists_earlier hlt he
    exact ⟨e', he', by omega⟩

theorem Arrived.captured_earlier (ha : Arrived h n d) (hmn : m < n) : Captured h m d := by
  obtain ⟨e, he, hle⟩ := ha
  obtain ⟨e', he', hlen⟩ := exists_earlier hmn he
  exact ⟨e', he', by omega⟩

/-! ### One move -/

theorem packetEnds_prefix_cons (b : Beat p) (h : List (Beat p)) :
    packetEnds h <+: packetEnds (b :: h) := ends_prefix_cons b h

theorem packetEnds_getElem?_cons (b : Beat p) (hn : n < (packetEnds h).length) :
    (packetEnds (b :: h))[n]? = (packetEnds h)[n]? := by
  obtain ⟨l, hl⟩ := packetEnds_prefix_cons b h
  rw [← hl, List.getElem?_append_left hn]

theorem resultAt_cons (b : Beat p) (hn : n < (packetEnds h).length) (r c : ℕ) :
    resultAt (b :: h) n r c = resultAt h n r c := by
  rw [resultAt, resultAt, List.getD_eq_getElem?_getD, List.getD_eq_getElem?_getD,
    packetEnds_getElem?_cons b hn]

/-- **A move captures what has arrived.** -/
theorem captured_cons (b : Beat p) : Captured (b :: h) n d ↔ Captured h n d ∨ Arrived h n d := by
  have hpos := p.LM_pos
  refine ⟨?_, ?_⟩
  · rintro ⟨e, he, hle⟩
    have hlen : e.length ≤ h.length := by
      rw [List.length_cons, SaParams.lag] at hle
      omega
    -- the packet that ends in `b` itself is too young
    have hold : (packetEnds h)[n]? = some e := by
      obtain ⟨l, hl⟩ := packetEnds_prefix_cons b h
      rw [packetEnds] at he hl ⊢
      cases hb : b.sValid && b.sLast with
      | false => rwa [ends_cons_of_not_end hb] at he
      | true =>
        rw [ends_cons_of_end hb] at he
        rcases Nat.lt_or_ge n (ends Beat.sValid Beat.sLast h).length with hn | hn
        · rwa [List.getElem?_append_left hn] at he
        · rw [List.getElem?_append_right hn] at he
          have hmem := List.mem_of_getElem? he
          rw [List.mem_singleton] at hmem
          subst hmem
          simp at hlen
    rcases Nat.eq_or_lt_of_le hle with heq | hlt
    · exact Or.inr ⟨e, hold, heq⟩
    · exact Or.inl ⟨e, hold, Nat.le_of_lt_succ hlt⟩
  · have hget : ∀ e, (packetEnds h)[n]? = some e → (packetEnds (b :: h))[n]? = some e :=
      fun e he => by rwa [packetEnds_getElem?_cons b (List.getElem?_eq_some_iff.mp he).1]
    rintro (⟨e, he, hle⟩ | ⟨e, he, hle⟩)
    · exact ⟨e, hget e he, Nat.le_succ_of_le hle⟩
    · exact ⟨e, hget e he, Nat.le_of_eq hle⟩

/-! ### The registers -/

/-- `a_valid[d]` says that some packet has arrived at diagonal `d`. -/
theorem Aligned.aValid_iff {s : AxisSa p} (ha : Aligned s h) (d : ℕ) :
    s.aValid d = true ↔ ∃ n, Arrived h n d := by
  have hpos := p.LM_pos
  rw [ha.aValid, Beat.isEnd, entry, end_iff_mem_ends (by exact idleBeat_sValid)]
  refine ⟨?_, ?_⟩
  · rintro ⟨e, he, hlen⟩
    obtain ⟨n, hn⟩ := List.mem_iff_getElem?.mp he
    refine ⟨n, e, hn, ?_⟩
    rw [SaParams.lag]
    omega
  · rintro ⟨n, e, he, hlen⟩
    refine ⟨e, List.mem_of_getElem? he, ?_⟩
    rw [SaParams.lag] at hlen
    omega

/-- Where a packet has arrived, the accumulators put out its result. -/
theorem Accumulated.mac_y_of_arrived {s : AxisSa p} (hs : Accumulated s h) {r c : ℕ} (hr : r < p.R)
    (hc : c < p.C) (harr : Arrived h n (r + c)) : (s.pe r c).mac.y p.LA = resultAt h n r c := by
  obtain ⟨e, he, hlen⟩ := harr
  have hdrop : e = h.drop (h.length - e.length) := eq_drop_of_mem_ends (List.mem_of_getElem? he)
  have hidx : h.length - e.length = p.LM + p.LA + (r + c) - 1 := by
    rw [SaParams.lag] at hlen
    omega
  rw [hs.mac_y hr hc, ← hidx, ← hdrop, resultAt, List.getD_eq_getElem?_getD, he, Option.getD_some]

end AxisSystolic
