import AxisSystolic.Engine.WriteWords

/-!
# The jobs of the write engine

A job is a descriptor with its frame.  The bursts that it needs are those up to the last word
that it writes (`WrDesc.reached`), and its beats go over all words of them
(`WrDesc.outs`).  For each burst there is an entry, the last of which says how much has been
written (`Entries`).

What the data part of the engine records is that of the jobs that are done and of the current
one (`Current`), and with each cycle the current one goes on or is done (`Current.step`).
-/

namespace AxisSystolic

open Mem Sync

variable {p : AxiDmaParams}

/-! ### What a job writes -/

namespace WrDesc

variable (d : WrDesc p)

/-- The last word that is written. -/
def endWord (fr : List (WrAxis p)) : ℕ := min d.lastWord (d.frameWord fr)

/-- The bursts that are needed. -/
def reached (fr : List (WrAxis p)) : List AxiBurst := reach (d.endWord fr) d.bursts

/-- Beat `k` of the bursts `bs`. -/
def out (fr : List (WrAxis p)) (bs : List AxiBurst) (k : ℕ) : List (Option (BitVec 8)) × Bool :=
  (lanesAt p.strbWidth d.off (d.payload fr) k, (lastMarks bs)[k]?.getD false)

/-- The first `n` beats. -/
def outs (fr : List (WrAxis p)) (bs : List AxiBurst) (n : ℕ) :
    List (List (Option (BitVec 8)) × Bool) :=
  (List.range n).map (d.out fr bs)

variable {d} {fr more : List (WrAxis p)} {bs bs' : List AxiBurst} {k n : ℕ}

theorem outs_succ : d.outs fr bs (n + 1) = d.outs fr bs n ++ [d.out fr bs n] := by
  rw [outs, List.range_succ, List.map_append]
  rfl

theorem outs_congr {fr' : List (WrAxis p)} (h : ∀ k < n, d.out fr bs k = d.out fr' bs' k) :
    d.outs fr bs n = d.outs fr' bs' n :=
  List.map_congr_left fun k hk => h k (List.mem_range.mp hk)

/-- The beats that come later do not change what has gone out. -/
theorem out_append_beats (hk : (k + 1) * p.strbWidth ≤ (frameBytes fr).length + d.off) :
    d.out (fr ++ more) bs k = d.out fr bs k := by
  have hlanes : lanesAt p.strbWidth d.off (d.payload (fr ++ more)) k
      = lanesAt p.strbWidth d.off (d.payload fr) k := by
    apply lanesAt_congr
    intro y hy
    rw [payload, payload, frameBytes_append, List.getElem?_take, List.getElem?_take,
      List.getElem?_append_left (by omega)]
  rw [out, out, hlanes]

theorem out_append_bursts (hk : k < (bs.flatMap p.words).length) :
    d.out fr (bs ++ bs') k = d.out fr bs k := by
  rw [out, out, lastMarks_append,
    List.getElem?_append_left (by rw [length_lastMarks p.toEngineParams]; exact hk)]

/-- Once the frame has more bytes than the descriptor, what is written stays as it is. -/
theorem payload_append (h : d.len.toNat ≤ (frameBytes fr).length) :
    d.payload (fr ++ more) = d.payload fr := by
  rw [payload, payload, frameBytes_append, List.take_append_of_le_length h]

/-- Bursts that begin those of the descriptor and have the last word are the ones needed. -/
theorem reached_eq {pre rest : List AxiBurst} {b : AxiBurst}
    (hall : d.bursts = (pre ++ [b]) ++ rest) (hpre : (pre.flatMap p.words).length ≤ d.endWord fr)
    (hend : d.endWord fr < ((pre ++ [b]).flatMap p.words).length) : d.reached fr = pre ++ [b] := by
  rw [reached, hall, List.append_assoc, List.singleton_append]
  exact reach_append hpre hend rest

end WrDesc

/-- What the last entry of a job says: the bytes written, the tag of the descriptor, and
`tid`, `tdest` and `tuser` of the last beat that there was room for. -/
structure WrEntry.Final (e : WrEntry p) (d : WrDesc p) (fr : List (WrAxis p)) : Prop where
  last : e.last = true
  len : e.len.toNat = (d.payload fr).length
  tag : e.tag = d.tag
  side : ∀ b ∈ (fr.take (d.lastWord + 1)).getLast?, e.side = b.side

/-- An entry for each burst, the last of which is the final one. -/
def Entries (d : WrDesc p) (fr : List (WrAxis p)) (bs : List AxiBurst) (es : List (WrEntry p)) :
    Prop :=
  ∃ pre e, es = pre ++ [e] ∧ pre.length + 1 = bs.length ∧ (∀ x ∈ pre, x.last = false) ∧ e.Final d fr

theorem Entries.append {d : WrDesc p} {fr : List (WrAxis p)} {bs : List AxiBurst}
    {es : List (WrEntry p)} (h : Entries d fr bs es)
    (enough : d.len.toNat ≤ (frameBytes fr).length) (long : d.lastWord < fr.length)
    (more : List (WrAxis p)) : Entries d (fr ++ more) bs es := by
  obtain ⟨pre, e, hes, hlen, hpre, hfinal⟩ := h
  refine ⟨pre, e, hes, hlen, hpre, hfinal.last, ?_, hfinal.tag, ?_⟩
  · rw [WrDesc.payload_append enough]
    exact hfinal.len
  · rw [List.take_append_of_le_length long]
    exact hfinal.side

/-- A descriptor, its frame, and the entries that were made for it. -/
structure WrJob (p : AxiDmaParams) where
  desc : WrDesc p
  frame : List (WrAxis p)
  entries : List (WrEntry p)

namespace WrJob

def bursts (x : WrJob p) : List AxiBurst := x.desc.reached x.frame

/-- A beat for each word of the bursts. -/
def outs (x : WrJob p) : List (List (Option (BitVec 8)) × Bool) :=
  x.desc.outs x.frame x.bursts (x.bursts.flatMap p.words).length

structure Done (x : WrJob p) : Prop where
  fits : x.desc.Fits
  frame : Complete x.frame
  entries : Entries x.desc x.frame x.bursts x.entries

theorem Done.length_entries {x : WrJob p} (h : x.Done) : x.entries.length = x.bursts.length := by
  obtain ⟨pre, e, hes, hlen, _⟩ := h.entries
  rw [hes, List.length_append, List.length_singleton, hlen]

end WrJob

/-- What the data part records: the descriptors and the beats that are taken, the bursts that
are begun, the beats that are put into the output FIFO, and the entries. -/
structure WrLog (p : AxiDmaParams) where
  descs : List (WrDesc p)
  beats : List (WrAxis p)
  bursts : List AxiBurst
  outs : List (List (Option (BitVec 8)) × Bool)
  entries : List (WrEntry p)

namespace WrLog

def nil : WrLog p := ⟨[], [], [], [], []⟩

instance : Append (WrLog p) where
  append a b := ⟨a.descs ++ b.descs, a.beats ++ b.beats, a.bursts ++ b.bursts, a.outs ++ b.outs,
    a.entries ++ b.entries⟩

theorem append_def (a b : WrLog p) : a ++ b = ⟨a.descs ++ b.descs, a.beats ++ b.beats,
    a.bursts ++ b.bursts, a.outs ++ b.outs, a.entries ++ b.entries⟩ := rfl

theorem append_nil (a : WrLog p) : a ++ nil = a := by
  show WrLog.mk _ _ _ _ _ = a
  simp [nil]

theorem append_assoc (a b c : WrLog p) : a ++ b ++ c = a ++ (b ++ c) := by
  show WrLog.mk _ _ _ _ _ = WrLog.mk _ _ _ _ _
  simp [append_def]

end WrLog

/-- What a job records. -/
def WrJob.log (x : WrJob p) : WrLog p := ⟨[x.desc], x.frame, x.bursts, x.outs, x.entries⟩

/-- What some jobs record. -/
def WrLog.jobs (done : List (WrJob p)) : WrLog p where
  descs := done.map WrJob.desc
  beats := done.flatMap WrJob.frame
  bursts := done.flatMap WrJob.bursts
  outs := done.flatMap WrJob.outs
  entries := done.flatMap WrJob.entries

theorem WrLog.jobs_append (done : List (WrJob p)) (x : WrJob p) :
    jobs (done ++ [x]) = jobs done ++ x.log := by
  simp [append_def, jobs, WrJob.log]

namespace WrControl

/-- What a cycle records. -/
def log (s : WrControl p) (i : WrControlIn p) : WrLog p where
  descs := (s.descTaken i).toList
  beats := (s.beatTaken i).toList
  bursts := if s.incActive i then [⟨s.addr, s.startOutput.setWidth 8⟩] else []
  outs := ((s.pushed i).map WrBeat.out).toList
  entries := (s.entry i).toList

variable {s : WrControl p} {i : WrControlIn p} {d : WrDesc p} {fr : List (WrAxis p)}
  {bs : List AxiBurst} {es : List (WrEntry p)} {cur : WrLog p} {n : ℕ}

/-- The current job, and what has been recorded of it. -/
inductive Current (s : WrControl p) : WrLog p → Prop
  | idle (state : s.state = .idle) (tready : s.tready = false) : Current s WrLog.nil
  | start (d : WrDesc p) (fr : List (WrAxis p)) (bs : List AxiBurst) (es : List (WrEntry p))
      (h : Starting d fr bs s) (count : es.length = bs.length) (early : ∀ e ∈ es, e.last = false) :
      Current s ⟨[d], fr, bs, d.outs fr bs fr.length, es⟩
  | write (d : WrDesc p) (fr : List (WrAxis p)) (bs : List AxiBurst) (es : List (WrEntry p))
      (h : Writing d fr bs s) (count : es.length + 1 = bs.length)
      (early : ∀ e ∈ es, e.last = false) : Current s ⟨[d], fr, bs, d.outs fr bs fr.length, es⟩
  | finish (x : WrJob p) (n : ℕ) (h : Finishing x.bursts n s) (done : x.Done)
      (behind : x.desc.off + (x.desc.payload x.frame).length ≤ n * p.strbWidth) :
      Current s ⟨[x.desc], x.frame, x.bursts, x.desc.outs x.frame x.bursts n, x.entries⟩
  | drop (d : WrDesc p) (fr : List (WrAxis p)) (es : List (WrEntry p)) (h : Dropping d fr s)
      (fits : d.Fits) (enough : d.len.toNat ≤ (frameBytes fr).length)
      (long : d.lastWord < fr.length) (entries : Entries d fr d.bursts es) :
      Current s ⟨[d], fr, d.bursts, d.outs fr d.bursts (d.lastWord + 1), es⟩

/-! ### What a cycle records -/

theorem descTaken_of_busy (hr : s.descReady = true → s.state = .idle) (hst : s.state ≠ .idle) :
    s.descTaken i = none := by
  have hno : s.descReady = false := by
    by_contra h
    exact hst (hr (eq_true_of_ne_false h))
  rw [descTaken, accepts, hno]
  rfl

theorem entry_of_other (hst : s.state ≠ .write) : s.entry i = none := by
  rw [entry, beq_eq_false_iff_ne.mpr hst]
  rfl

theorem incActive_of_other (hst : s.state ≠ .start) : s.incActive i = false := by
  rw [incActive, beq_eq_false_iff_ne.mpr hst]
  rfl

theorem beatTaken_of_not_ready (ht : s.tready = false) : s.beatTaken i = none := by
  rw [beatTaken, takes, ht]
  rfl

theorem log_eq_nil (hdesc : s.descTaken i = none) (hbeat : s.beatTaken i = none)
    (hinc : s.incActive i = false) (hpushed : s.pushed i = none) (hentry : s.entry i = none) :
    s.log i = WrLog.nil := by
  rw [log, hdesc, hbeat, hinc, hpushed, hentry]
  rfl

namespace Writing

variable (h : Writing d fr bs s)

include h

/-- The words that have gone out do not change with what comes. -/
theorem outs_next : d.outs (beatsNext fr s i) bs fr.length = d.outs fr bs fr.length := by
  cases he : frameEnded fr with
  | true => rw [beatsNext_of_not_takes (h.takes_of_ended he)]
  | false =>
    refine WrDesc.outs_congr fun k hk => WrDesc.out_append_beats ?_
    rw [h.frame.length_bytes he]
    exact Nat.le_add_right_of_le (Nat.mul_le_mul_right _ hk)

theorem log_eq (hr : s.descReady = true → s.state = .idle) (hm : s.emits i = true)
    (hb : ∀ b ∈ s.beatTaken i, WrAxis.Whole b)
    (hs : Emits.Strobes d fr.length (frameBytes (beatsNext fr s i)) s i) :
    (⟨[d], fr, bs, d.outs fr bs fr.length, es⟩ : WrLog p) ++ s.log i
      = ⟨[d], beatsNext fr s i, bs, d.outs (beatsNext fr s i) bs (fr.length + 1),
          es ++ (s.entry i).toList⟩ := by
  have hinc := incActive_of_other (s := s) (i := i) (by simp [h.state])
  have hdesc := descTaken_of_busy (i := i) hr (by simp [h.state])
  rw [WrLog.append_def, log, hdesc, hinc, h.pushed_eq hm hb hs, if_neg Bool.false_ne_true,
    WrDesc.outs_succ, h.outs_next, WrDesc.out, h.mark_eq]
  simp [beatsNext]

/-- Nothing goes out, so nothing is recorded. -/
theorem log_of_wait (hr : s.descReady = true → s.state = .idle) (hm : s.emits i = false) :
    s.log i = WrLog.nil := by
  have hno := hm
  rw [h.emits_eq, Bool.or_eq_false_iff] at hno
  have hinc := incActive_of_other (s := s) (i := i) (by simp [h.state])
  have hbeat : s.beatTaken i = none := by
    rw [beatTaken, hno.2]
    rfl
  have hpushed : s.pushed i = none := by
    rw [pushed, h.state]
    simp [hm]
  have hentry : s.entry i = none := by
    rw [entry, hm, Bool.and_false, Bool.false_and]
    rfl
  exact log_eq_nil (descTaken_of_busy hr (by simp [h.state])) hbeat hinc hpushed hentry

/-! ### The entry of a burst -/

theorem entry_eq (hm : s.emits i = true) : s.entry i
    = if s.shiftTlast i || s.outputLastCycle then
        some ⟨s.lengthNext i, s.tag, s.sideNext i, s.ends i⟩ else none := by
  rw [entry, h.state, hm]
  rfl

/-- The frame or the descriptor ends. -/
theorem entry_final (hm : s.emits i = true) (hb : ∀ b ∈ s.beatTaken i, WrAxis.Whole b)
    (hs : Emits.Strobes d fr.length (frameBytes (beatsNext fr s i)) s i)
    (hend : s.shiftTlast i = true ∨ s.outputLastCycle = true ∧ s.opWordCount = 0) :
    ∃ e, s.entry i = some e ∧ e.Final d (beatsNext fr s i) := by
  have hplace := h.place
  have hword := h.emits_word hm hb
  have hends : s.ends i = true := by
    rcases hend with ht | ⟨hl, hop⟩
    · rw [ends, ht]
      rfl
    · rw [ends, hl, hop]
      exact Bool.or_true _
  have hcond : (s.shiftTlast i || s.outputLastCycle) = true := by
    rcases hend with ht | ⟨hl, _⟩
    · rw [ht]
      rfl
    · rw [hl]
      exact Bool.or_true _
  refine ⟨_, (h.entry_eq hm).trans (if_pos hcond), hends, ?_, h.tag, ?_⟩
  · have hlow := (WrDesc.le_lastWord h.fits).mp hplace.le
    have hbegun := hword.begun
    have hfit : min (frameBytes (beatsNext fr s i)).length d.len.toNat + d.off
        ≤ (fr.length + 1) * p.strbWidth := by
      rcases hend with ht | ⟨hl, hop⟩
      · have htlast := hword.tlast
        rw [ht] at htlast
        have := of_decide_eq_true (Bool.and_eq_true_iff.mp htlast.symm).2
        omega
      · have hk : fr.length = d.lastWord := by
          have hlast := hplace.last
          rw [hl, hop] at hlast
          exact of_decide_eq_true hlast.symm
        have := hplace.len_le hk
        omega
    rw [h.toNat_lengthNext hm hb hs, Emits.lanesEnd, WrDesc.payload, List.length_take,
      Nat.min_comm d.len.toNat]
    rw [Nat.succ_mul] at hfit
    omega
  · have hle := hplace.le
    intro b hb'
    show s.sideNext i = b.side
    cases ht : s.takes i with
    | true =>
      have hlen : (fr ++ [i.beat]).length ≤ d.lastWord + 1 := by
        rw [List.length_append, List.length_singleton]
        omega
      rw [beatsNext_of_takes ht, List.take_of_length_le hlen] at hb'
      have hbeat : i.beat = b := by simpa using hb'
      rw [sideNext, ht, if_pos rfl, hbeat]
    | false =>
      rw [beatsNext_of_not_takes ht, List.take_of_length_le (by omega)] at hb'
      rw [sideNext, ht, if_neg Bool.false_ne_true]
      exact h.side b hb'

theorem entry_early (hm : s.emits i = true) (ht : s.shiftTlast i = false)
    (hop : s.outputLastCycle = true → s.opWordCount ≠ 0) :
    ∀ e ∈ s.entry i, e.last = false := by
  intro e he
  rw [h.entry_eq hm, ht] at he
  cases hl : s.outputLastCycle with
  | false =>
    rw [hl] at he
    cases he
  | true =>
    rw [hl] at he
    obtain rfl := Option.some.inj he
    show s.ends i = false
    rw [ends, ht, hl, beq_eq_false_iff_ne.mpr (hop hl)]
    rfl

end Writing

/-! ### One cycle -/

/-- The current job goes on, or it is done and the next one may come. -/
def Proceeds (s : WrControl p) (cur : WrLog p) : Prop :=
  Current s cur ∨ ∃ x : WrJob p, x.Done ∧ cur = x.log ∧ Current s WrLog.nil

namespace Writing

variable (h : Writing d fr bs s)

include h

/-- The frame ends in this word, and all that is needed of the bursts has been begun. -/
theorem done (hm : s.emits i = true) (hb : ∀ b ∈ s.beatTaken i, WrAxis.Whole b)
    (hs : Emits.Strobes d fr.length (frameBytes (beatsNext fr s i)) s i)
    (ht : s.shiftTlast i = true) (count : es.length + 1 = bs.length)
    (early : ∀ e ∈ es, e.last = false) :
    (⟨d, beatsNext fr s i, es ++ (s.entry i).toList⟩ : WrJob p).Done ∧
      d.reached (beatsNext fr s i) = bs ∧
      d.off + (d.payload (beatsNext fr s i)).length ≤ (fr.length + 1) * p.strbWidth := by
  have hword := h.emits_word hm hb
  have hpos := h.length_next_pos hm hb
  have htlast := hword.tlast
  rw [ht] at htlast
  obtain ⟨hended, hle⟩ := Bool.and_eq_true_iff.mp htlast.symm
  have hle' := of_decide_eq_true hle
  have hend : d.endWord (beatsNext fr s i) = fr.length := by
    have hlow := (WrDesc.le_frameWord hpos).mpr hword.begun
    have hhigh := (WrDesc.le_frameWord (d := d) hpos (k := fr.length + 1)).not
    have := h.place.le
    rw [WrDesc.endWord]
    omega
  have hreached : d.reached (beatsNext fr s i) = bs := by
    have hwords := h.words
    have hall := h.bursts
    obtain ⟨pre, b, rfl, hpre⟩ := h.burst
    exact WrDesc.reached_eq hall (by rw [hend]; exact hpre) (by omega)
  obtain ⟨e, he, hfinal⟩ := h.entry_final hm hb hs (Or.inl ht)
  refine ⟨⟨h.fits, ⟨h.frame_next hb, hended⟩, es, e, ?_, ?_, early, hfinal⟩, hreached, ?_⟩
  · rw [he]
    rfl
  · show es.length + 1 = (d.reached (beatsNext fr s i)).length
    rw [hreached, count]
  · rw [WrDesc.payload, List.length_take]
    omega

/-- The frame ends, and the job with it once the burst is full. -/
theorem proceeds_of_frame (hm : s.emits i = true) (hb : ∀ b ∈ s.beatTaken i, WrAxis.Whole b)
    (hs : Emits.Strobes d fr.length (frameBytes (beatsNext fr s i)) s i)
    (ht : s.shiftTlast i = true) (count : es.length + 1 = bs.length)
    (early : ∀ e ∈ es, e.last = false) :
    Proceeds (s.step i) ⟨[d], beatsNext fr s i, bs, d.outs (beatsNext fr s i) bs (fr.length + 1),
      es ++ (s.entry i).toList⟩ := by
  obtain ⟨hdone, hreached, hbehind⟩ := h.done hm hb hs ht count early
  cases hl : s.outputLastCycle with
  | true =>
    refine Or.inr ⟨⟨d, beatsNext fr s i, es ++ (s.entry i).toList⟩, hdone, ?_, .idle ?_ ?_⟩
    · rw [WrJob.log, WrJob.outs, WrJob.bursts, hreached, ← h.last_iff.mp hl]
    · simp [step, h.state, hm, ht, hl]
    · simp [step, h.state, hm, ht]
  | false =>
    have hfin := h.finish hm ht hl
    have hcur := Current.finish (s := s.step i) ⟨d, beatsNext fr s i, es ++ (s.entry i).toList⟩
      (fr.length + 1) (by rw [WrJob.bursts, hreached]; exact hfin) hdone hbehind
    rw [WrJob.bursts, hreached] at hcur
    exact Or.inl hcur

/-- The descriptor ends, and the rest of the frame is to be dropped. -/
theorem current_of_desc (hm : s.emits i = true) (ht : s.shiftTlast i = false)
    (hb : ∀ b ∈ s.beatTaken i, WrAxis.Whole b)
    (hs : Emits.Strobes d fr.length (frameBytes (beatsNext fr s i)) s i)
    (hl : s.outputLastCycle = true) (hop : s.opWordCount = 0) (count : es.length + 1 = bs.length)
    (early : ∀ e ∈ es, e.last = false) :
    Current (s.step i) ⟨[d], beatsNext fr s i, bs, d.outs (beatsNext fr s i) bs (fr.length + 1),
      es ++ (s.entry i).toList⟩ := by
  obtain ⟨_, htakes⟩ := h.takes_of_more hm ht
  have hcount : (beatsNext fr s i).length = fr.length + 1 := by
    rw [beatsNext_of_takes htakes, List.length_append, List.length_singleton]
  have hword := h.last_iff.mp hl
  obtain ⟨e, he, hfinal⟩ := h.entry_final hm hb hs (Or.inr ⟨hl, hop⟩)
  have hbs : d.bursts = bs := by
    rw [h.bursts, restBursts, if_pos hop, List.append_nil]
  have hk : fr.length = d.lastWord := by
    have := h.op_iff.mp hop
    omega
  have hfull := (h.emits_word hm hb).full_of_more ht
  have hlen := h.place.len_le hk
  have hcur := Current.drop (s := s.step i) d (beatsNext fr s i) (es ++ (s.entry i).toList)
    (h.drop hm ht hb hl hop) h.fits (by omega) (by omega)
    ⟨es, e, by rw [he]; rfl, by rw [hbs, count], early, hfinal⟩
  rw [hbs, ← hk] at hcur
  exact hcur

/-- The burst ends, and there is another one. -/
theorem current_of_burst (hm : s.emits i = true) (ht : s.shiftTlast i = false)
    (hb : ∀ b ∈ s.beatTaken i, WrAxis.Whole b)
    (hs : Emits.Strobes d fr.length (frameBytes (beatsNext fr s i)) s i)
    (hl : s.outputLastCycle = true) (hop : s.opWordCount ≠ 0)
    (hsuit : frameEnded (beatsNext fr s i) = true → d.Suits (beatsNext fr s i))
    (count : es.length + 1 = bs.length) (early : ∀ e ∈ es, e.last = false) :
    Current (s.step i) ⟨[d], beatsNext fr s i, bs,
      d.outs (beatsNext fr s i) bs (beatsNext fr s i).length, es ++ (s.entry i).toList⟩ := by
  obtain ⟨e, he⟩ : ∃ e, s.entry i = some e :=
    ⟨_, (h.entry_eq hm).trans (by rw [hl, Bool.or_true]; rfl)⟩
  have hlast := h.entry_early hm ht fun _ => hop
  refine .start d _ bs _ (h.burst_done hm ht hb hs hl hop hsuit) ?_ ?_
  · rw [he, List.length_append]
    exact count
  · intro x hx
    rcases List.mem_append.mp hx with hx | hx
    · exact early x hx
    · exact hlast x (Option.mem_toList.mp hx)

theorem proceeds (hr : s.descReady = true → s.state = .idle)
    (hb : ∀ b ∈ s.beatTaken i, WrAxis.Whole b)
    (hsuit : frameEnded (beatsNext fr s i) = true → d.Suits (beatsNext fr s i))
    (count : es.length + 1 = bs.length) (early : ∀ e ∈ es, e.last = false) :
    Proceeds (s.step i) (⟨[d], fr, bs, d.outs fr bs fr.length, es⟩ ++ s.log i) := by
  cases hm : s.emits i with
  | false =>
    rw [h.log_of_wait hr hm, WrLog.append_nil]
    exact Or.inl (.write d fr bs es (h.wait hm) count early)
  | true =>
    have hs := h.strobes hm hb hsuit
    rw [h.log_eq hr hm hb hs]
    cases ht : s.shiftTlast i with
    | true => exact h.proceeds_of_frame hm hb hs ht count early
    | false =>
      obtain ⟨_, htakes⟩ := h.takes_of_more hm ht
      have hcount : (beatsNext fr s i).length = fr.length + 1 := by
        rw [beatsNext_of_takes htakes, List.length_append, List.length_singleton]
      cases hl : s.outputLastCycle with
      | false =>
        have hentry : s.entry i = none := by
          rw [h.entry_eq hm, ht, hl]
          rfl
        rw [hentry, Option.toList_none, List.append_nil, ← hcount]
        exact Or.inl (.write d _ bs es (h.more hm ht hb hs hl) count early)
      | true =>
        by_cases hop : s.opWordCount = 0
        · exact Or.inl (h.current_of_desc hm ht hb hs hl hop count early)
        · rw [← hcount]
          exact Or.inl (h.current_of_burst hm ht hb hs hl hop hsuit count early)

end Writing

/-- A burst is begun, or waits. -/
theorem Starting.proceeds (h : Starting d fr bs s) (hr : s.descReady = true → s.state = .idle)
    (count : es.length = bs.length) (early : ∀ e ∈ es, e.last = false) :
    Proceeds (s.step i) (⟨[d], fr, bs, d.outs fr bs fr.length, es⟩ ++ s.log i) := by
  have hdesc := descTaken_of_busy (i := i) hr (by simp [h.state])
  have hbeat := beatTaken_of_not_ready (i := i) h.tready
  have hpushed : s.pushed i = none := by rw [pushed, h.state]
  have hentry := entry_of_other (s := s) (i := i) (by simp [h.state])
  cases hb : s.begins i with
  | false =>
    have hinc : s.incActive i = false := by
      rw [incActive, hb]
      exact Bool.and_false _
    rw [log_eq_nil hdesc hbeat hinc hpushed hentry, WrLog.append_nil]
    exact Or.inl (.start d fr bs es (h.wait hb) count early)
  | true =>
    have hinc : s.incActive i = true := by
      rw [incActive, h.state, hb]
      rfl
    have hburst : (⟨s.addr, s.startOutput.setWidth 8⟩ : AxiBurst)
        = p.burst s.addr s.opWordCount := congrArg (AxiBurst.mk s.addr) h.toNat_startOutput.2.2
    have houts : d.outs fr bs fr.length
        = d.outs fr (bs ++ [p.burst s.addr s.opWordCount]) fr.length :=
      WrDesc.outs_congr fun k hk => (WrDesc.out_append_bursts (by rw [h.words]; exact hk)).symm
    rw [WrLog.append_def, log, hdesc, hbeat, hpushed, hentry, hinc, if_pos rfl, hburst, houts]
    have hcur := Current.write d fr _ es (h.begin_ hb).1
      (by rw [List.length_append, List.length_singleton, count]) early
    exact Or.inl (by simpa using hcur)

/-- The rest of the burst has no strobes. -/
theorem Finishing.proceeds {x : WrJob p} (h : Finishing x.bursts n s)
    (hr : s.descReady = true → s.state = .idle) (done : x.Done)
    (behind : x.desc.off + (x.desc.payload x.frame).length ≤ n * p.strbWidth) :
    Proceeds (s.step i)
      (⟨[x.desc], x.frame, x.bursts, x.desc.outs x.frame x.bursts n, x.entries⟩ ++ s.log i) := by
  have hdesc := descTaken_of_busy (i := i) hr (by simp [h.state])
  have hbeat := beatTaken_of_not_ready (i := i) h.tready
  have hentry := entry_of_other (s := s) (i := i) (by simp [h.state])
  have hinc := incActive_of_other (s := s) (i := i) (by simp [h.state])
  cases hw : i.wreadyInt with
  | false =>
    have hpushed : s.pushed i = none := by
      rw [pushed, h.state]
      simp [hw]
    have hstep : s.step i = s.base i := by simp [step, h.state, hw]
    rw [log_eq_nil hdesc hbeat hinc hpushed hentry, WrLog.append_nil, hstep]
    exact Or.inl (.finish x n ⟨⟨h.last, h.words, h.burst⟩, h.state, rfl⟩ done behind)
  | true =>
    have hpushed : (s.pushed i).map WrBeat.out = some (x.desc.out x.frame x.bursts n) := by
      have hnone := lanesAt_of_le (n := p.strbWidth) (k := n) behind
      rw [pushed, h.state]
      simp only [hw, if_true, Option.map_some, WrBeat.out]
      rw [strobed_zero, WrDesc.out, hnone, h.mark_eq]
    have hlog : (⟨[x.desc], x.frame, x.bursts, x.desc.outs x.frame x.bursts n, x.entries⟩ : WrLog p)
        ++ s.log i = ⟨[x.desc], x.frame, x.bursts, x.desc.outs x.frame x.bursts (n + 1),
          x.entries⟩ := by
      rw [WrLog.append_def, log, hdesc, hbeat, hpushed, hentry, hinc, WrDesc.outs_succ]
      simp
    rw [hlog]
    cases hl : s.outputLastCycle with
    | true =>
      refine Or.inr ⟨x, done, ?_, .idle ?_ ?_⟩
      · rw [WrJob.log, WrJob.outs, ← h.last_iff.mp hl]
      · simp [step, h.state, hw, hl]
      · simp [step, h.state, hw, base]
    | false =>
      refine Or.inl (.finish x (n + 1) ⟨h.toCounts.next hl ?_ ?_, ?_, ?_⟩ done ?_)
      · simp [step, h.state, hw]
      · simp [step, h.state, hw]
      · simp [step, h.state, hw, hl]
      · simp [step, h.state, hw, base]
      · rw [Nat.succ_mul]
        exact Nat.le_add_right_of_le behind

/-- All bursts of a descriptor are needed for a frame that has a byte in its last word. -/
theorem reached_of_enough (hfit : d.Fits) (enough : d.len.toNat ≤ (frameBytes fr).length) :
    d.reached fr = d.bursts := by
  have hlen := hfit.len_pos
  have hlow := (WrDesc.le_lastWord hfit).mp (le_refl d.lastWord)
  have hend : d.endWord fr = d.lastWord :=
    Nat.min_eq_left ((WrDesc.le_frameWord (by omega)).mpr (by omega))
  have hall := WrDesc.length_words hfit
  rcases List.eq_nil_or_concat d.bursts with hnil | ⟨pre, b, hbs⟩
  · rw [hnil] at hall
    cases hall
  · rw [List.concat_eq_append] at hbs
    rw [hbs] at hall
    have hsplit := hall
    rw [List.flatMap_append, List.length_append, List.flatMap_singleton,
      AxisSystolic.length_words] at hsplit
    rw [hbs]
    exact WrDesc.reached_eq (hbs.trans (List.append_nil _).symm) (by omega) (by omega)

/-- The frame has ended, so the job is done. -/
theorem Dropping.proceeds_of_ended (h : Dropping d fr s) {fr' : List (WrAxis p)}
    (hfr : Complete fr') (fits : d.Fits) (enough : d.len.toNat ≤ (frameBytes fr').length)
    (entries : Entries d fr' d.bursts es) (hv : s.shiftTvalid i = true)
    (ht : s.shiftTlast i = true) :
    Proceeds (s.step i) ⟨[d], fr', d.bursts, d.outs fr' d.bursts (d.lastWord + 1), es⟩ := by
  have hreached := reached_of_enough fits enough
  refine Or.inr ⟨⟨d, fr', es⟩, ⟨fits, hfr, ?_⟩, ?_, .idle ?_ ?_⟩
  · show Entries d _ (d.reached _) es
    rw [hreached]
    exact entries
  · rw [WrJob.log, WrJob.outs, WrJob.bursts, hreached, WrDesc.length_words fits]
  · simp [step, h.state, hv, ht]
  · simp [step, h.state, hv, ht]

/-- What comes after the end of the descriptor is only seen in the beats taken. -/
theorem Dropping.log_eq (h : Dropping d fr s) (hr : s.descReady = true → s.state = .idle)
    (enough : d.len.toNat ≤ (frameBytes fr).length) :
    (⟨[d], fr, d.bursts, d.outs fr d.bursts (d.lastWord + 1), es⟩ : WrLog p) ++ s.log i
      = ⟨[d], beatsNext fr s i, d.bursts, d.outs (beatsNext fr s i) d.bursts (d.lastWord + 1),
          es⟩ := by
  have hdesc := descTaken_of_busy (i := i) hr (by simp [h.state])
  have hpushed : s.pushed i = none := by rw [pushed, h.state]
  have hentry := entry_of_other (s := s) (i := i) (by simp [h.state])
  have hinc := incActive_of_other (s := s) (i := i) (by simp [h.state])
  have houts : d.outs fr d.bursts (d.lastWord + 1)
      = d.outs (beatsNext fr s i) d.bursts (d.lastWord + 1) := by
    refine WrDesc.outs_congr fun k _ => ?_
    rw [WrDesc.out, WrDesc.out, beatsNext, WrDesc.payload_append enough]
  rw [WrLog.append_def, log, hdesc, hpushed, hentry, hinc, houts]
  simp [beatsNext]

/-- The rest of the frame comes. -/
theorem Dropping.proceeds (h : Dropping d fr s) (hr : s.descReady = true → s.state = .idle)
    (hb : ∀ b ∈ s.beatTaken i, WrAxis.Whole b) (fits : d.Fits)
    (enough : d.len.toNat ≤ (frameBytes fr).length) (long : d.lastWord < fr.length)
    (entries : Entries d fr d.bursts es) : Proceeds (s.step i)
      (⟨[d], fr, d.bursts, d.outs fr d.bursts (d.lastWord + 1), es⟩ ++ s.log i) := by
  rw [h.log_eq hr enough]
  cases he : frameEnded fr with
  | true =>
    obtain ⟨hno, hv, ht⟩ := h.ended (i := i) he
    rw [beatsNext_of_not_takes hno]
    exact h.proceeds_of_ended ⟨h.frame, he⟩ fits enough entries hv ht
  | false =>
    obtain ⟨htakes, hv⟩ := h.takes_of_open (i := i) he
    cases hvalid : i.valid with
    | false =>
      rw [beatsNext_of_not_takes (htakes.trans hvalid)]
      exact Or.inl (.drop d fr es (h.wait he hvalid) fits enough long entries)
    | true =>
      rw [hvalid] at htakes hv
      have hwhole := hb i.beat (by rw [beatTaken, if_pos htakes]; rfl)
      have henough : d.len.toNat ≤ (frameBytes (fr ++ [i.beat])).length := by
        rw [frameBytes_append, List.length_append]
        exact Nat.le_add_right_of_le enough
      have hentries := entries.append enough long [i.beat]
      rw [beatsNext_of_takes htakes]
      cases ht : s.shiftTlast i with
      | true =>
        have hlast := h.shiftTlast_eq he hwhole
        rw [ht] at hlast
        have hended : frameEnded (fr ++ [i.beat]) = true :=
          (frameEnded_append fr i.beat).trans (Bool.and_eq_true_iff.mp hlast.symm).1
        exact h.proceeds_of_ended ⟨h.frame.append he hwhole, hended⟩ fits henough hentries hv ht
      | false =>
        refine Or.inl (.drop d _ es (h.next he hvalid hwhole ht) fits henough ?_ hentries)
        rw [List.length_append]
        exact Nat.lt_add_right _ long

namespace Current

/-- The beats that have come are of one frame. -/
theorem frame_next (h : Current s cur) (hb : ∀ b ∈ s.beatTaken i, WrAxis.Whole b) :
    Frame (cur ++ s.log i).beats := by
  have hbeats : (cur ++ s.log i).beats = beatsNext cur.beats s i := rfl
  rw [hbeats]
  cases h with
  | idle state tready =>
    rw [beatsNext, beatTaken_of_not_ready tready]
    exact Frame.nil
  | start d fr bs es h =>
    rw [beatsNext, beatTaken_of_not_ready h.tready, Option.toList_none, List.append_nil]
    exact h.frame
  | write d fr bs es h => exact h.frame_next hb
  | finish x n h done =>
    rw [beatsNext, beatTaken_of_not_ready h.tready, Option.toList_none, List.append_nil]
    exact done.frame.toFrame
  | drop d fr es h =>
    cases ht : s.takes i with
    | false =>
      rw [beatsNext_of_not_takes ht]
      exact h.frame
    | true =>
      have hready := ht
      rw [takes, h.tready, Bool.and_eq_true, Bool.not_eq_true'] at hready
      rw [beatsNext_of_takes ht]
      exact h.frame.append hready.1 (hb _ (by rw [beatTaken, if_pos ht]; rfl))

/-- An entry is only made for a burst that has none. -/
theorem entry_lt (h : Current s cur) (he : (s.entry i).isSome = true) :
    cur.entries.length < cur.bursts.length := by
  have hst : s.state = .write := by
    by_contra hst
    rw [entry_of_other hst] at he
    exact Bool.false_ne_true he
  cases h with
  | idle state tready => rw [state] at hst; cases hst
  | start d fr bs es h => rw [h.state] at hst; cases hst
  | write d fr bs es h count => exact Nat.lt_of_succ_le (Nat.le_of_eq count)
  | finish x n h => rw [h.state] at hst; cases hst
  | drop d fr es h => rw [h.state] at hst; cases hst

end Current

/-- **The current job goes on, or is done**, if descriptors fit, beats are whole and a frame
that has ended suits its descriptor. -/
theorem Current.step (h : Current s cur) (hr : s.descReady = true → s.state = .idle)
    (hfit : ∀ d ∈ s.descTaken i, d.Fits) (hb : ∀ b ∈ s.beatTaken i, WrAxis.Whole b)
    (hsuit : ∀ d, cur.descs = [d] → frameEnded (cur ++ s.log i).beats = true →
      d.Suits (cur ++ s.log i).beats) : Proceeds (s.step i) (cur ++ s.log i) := by
  cases h with
  | idle state tready =>
    have hbeat := beatTaken_of_not_ready (i := i) tready
    have hpushed : s.pushed i = none := by rw [pushed, state]
    have hentry := entry_of_other (s := s) (i := i) (by simp [state])
    have hinc := incActive_of_other (s := s) (i := i) (by simp [state])
    have hlog : WrLog.nil ++ s.log i = ⟨(s.descTaken i).toList, [], [], [], []⟩ := by
      rw [WrLog.append_def, log, hbeat, hpushed, hentry, hinc]
      rfl
    rw [hlog]
    cases ha : s.accepts i with
    | false =>
      rw [descTaken, ha]
      exact Or.inl (.idle (by simp [WrControl.step, state, ha])
        (by simp [WrControl.step, state, base]))
    | true =>
      have htaken : s.descTaken i = some i.desc := by
        rw [descTaken, ha]
        rfl
      rw [htaken]
      exact Or.inl (.start i.desc [] [] [] (starting_of_accepts state ha (hfit _ htaken)) rfl
        fun e he => absurd he List.not_mem_nil)
  | start d fr bs es h count early => exact h.proceeds hr count early
  | write d fr bs es h count early => exact h.proceeds hr hb (hsuit d rfl) count early
  | finish x n h done behind => exact h.proceeds hr done behind
  | drop d fr es h fits enough long entries => exact h.proceeds hr hb fits enough long entries

end WrControl

end AxisSystolic
