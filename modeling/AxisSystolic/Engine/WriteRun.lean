import AxisSystolic.Engine.WriteEngine

/-!
# What the write engine does in a run

The sender of a run has frames, of which the engine has taken some beats; a descriptor and
the frame that is taken for it make a job.  Then the engine writes, word by word, what the
jobs have to write, with a beat for each word of the bursts that it requests, and reports
their status when it has the responses (`wrEngine_run`).  So what has been reported is in the
memory (`wrEngine_memory`).
-/

namespace AxisSystolic

open Sync Mem

variable {p : AxiDmaParams}

/-! ### What a descriptor writes with its frame -/

/-- A bound on the words is one on the bursts. -/
theorem length_lt_of_words {all bs bs' : List AxiBurst} (h : bs <+: all) (h' : bs' <+: all)
    (hlt : (bs.flatMap p.words).length < (bs'.flatMap p.words).length) :
    bs.length < bs'.length := by
  by_contra hge
  obtain ⟨more, rfl⟩ := List.prefix_of_prefix_length_le h' h (Nat.le_of_not_lt hge)
  rw [List.flatMap_append, List.length_append] at hlt
  omega

/-- The bursts that are reached have the word. -/
theorem lt_length_reach {x : ℕ} {bs : List AxiBurst} (h : x < (bs.flatMap p.words).length) :
    x < ((reach x bs).flatMap p.words).length := by
  induction bs generalizing x with
  | nil => exact absurd h (Nat.not_lt_zero _)
  | cons b bs ih =>
    rw [List.flatMap_cons, List.length_append, length_words] at h
    rw [reach, List.flatMap_cons, List.length_append, length_words]
    split
    · omega
    · have := @ih (x - (b.len.toNat + 1)) (by omega)
      omega

namespace WrDesc

variable (d : WrDesc p) (fr : List (WrAxis p))

/-- Word `k`, and what is written to it. -/
def write (k : ℕ) : ℕ × List (Option (BitVec 8)) :=
  (d.addr.toNat / p.strbWidth + k, lanesAt p.strbWidth d.off (d.payload fr) k)

/-- All words of the bursts that are needed. -/
def writes : List (ℕ × List (Option (BitVec 8))) :=
  (List.range ((d.reached fr).flatMap p.words).length).map (d.write fr)

variable {d fr}

theorem reached_le : d.reached fr <+: d.bursts := reach_le _ _

theorem endWord_lt (hfit : d.Fits) : d.endWord fr < ((d.reached fr).flatMap p.words).length := by
  refine lt_length_reach ?_
  rw [length_words hfit, endWord]
  omega

/-- Words of the descriptor with some of its lanes. -/
theorem zip_words (hfit : d.Fits) {bs : List AxiBurst} (hbs : bs <+: d.bursts) {n : ℕ}
    (hn : n ≤ (bs.flatMap p.words).length) :
    (bs.flatMap p.words).zip ((d.outs fr bs n).map Prod.fst) = (List.range n).map (d.write fr) := by
  obtain ⟨more, hmore⟩ := hbs
  have hall := words_eq hfit
  rw [← hmore, List.flatMap_append] at hall
  have hlen := congrArg List.length hall
  rw [List.length_append, List.length_range'] at hlen
  have htake := congrArg (List.take (bs.flatMap p.words).length) hall
  rw [List.take_left, List.take_range'_of_length_ge (by omega)] at htake
  have hsplit : bs.flatMap p.words = List.range' (d.addr.toNat / p.strbWidth) n
      ++ List.range' (d.addr.toNat / p.strbWidth + n) ((bs.flatMap p.words).length - n) := by
    rw [List.range'_append_1, Nat.add_sub_cancel' hn]
    exact htake
  have hlanes : ((d.outs fr bs n).map Prod.fst).length
      ≤ (List.range' (d.addr.toNat / p.strbWidth) n).length := by
    rw [outs, List.length_map, List.length_map, List.length_range, List.length_range']
  rw [hsplit, zip_append_of_le hlanes, outs, List.map_map, List.range'_eq_map_range, List.zip_map']
  rfl

/-- What is written ends with the last word that is needed. -/
theorem payload_le (hfit : d.Fits) : d.off + (d.payload fr).length
    ≤ ((d.reached fr).flatMap p.words).length * p.strbWidth := by
  have hoff := off_lt (d := d)
  have hlen := (le_lastWord hfit (k := d.lastWord + 1)).not
  have hend : d.off + (d.payload fr).length ≤ (d.endWord fr + 1) * p.strbWidth := by
    rw [payload, List.length_take]
    rcases Nat.eq_zero_or_pos (frameBytes fr).length with h0 | hpos
    · have hone : p.strbWidth ≤ (d.endWord fr + 1) * p.strbWidth :=
        Nat.le_mul_of_pos_left _ (Nat.succ_pos _)
      omega
    · have hframe := (le_frameWord (d := d) hpos (k := d.frameWord fr + 1)).not
      rw [endWord]
      rcases Nat.le_total d.lastWord (d.frameWord fr) with hle | hle
      · rw [Nat.min_eq_left hle]
        omega
      · rw [Nat.min_eq_right hle]
        omega
  exact Nat.le_trans hend (Nat.mul_le_mul_right _ (endWord_lt hfit))

/-- **The words of a descriptor write what there is to write.** -/
theorem writeAll_writes (hfit : d.Fits) (m : Memory) :
    writeAll p.strbWidth m (d.writes fr) = writeBytes m d.addr.toNat (d.payload fr) := by
  have haddr : d.addr.toNat / p.strbWidth * p.strbWidth + d.off = d.addr.toNat :=
    Nat.div_add_mod' _ _
  have hall := writeAll_lanesAt m (d.addr.toNat / p.strbWidth) off_lt
    (payload_le hfit : d.off + (d.payload fr).length ≤ _)
  rw [haddr, List.range'_eq_map_range, List.zip_map'] at hall
  exact hall

end WrDesc

/-! ### What is reported -/

/-- `tid`, `tdest` and `tuser` of the last beat that there was room for. -/
def WrDesc.lastSide (d : WrDesc p) (fr : List (WrAxis p)) : AxisSide p.side :=
  ((fr.take (d.lastWord + 1)).getLast?.map fun b => b.side).getD p.sideReset

/-- The status of a descriptor and its frame, for the responses to its bursts. -/
def WrDesc.report (d : WrDesc p) (fr : List (WrAxis p)) (rs : List (BitVec 2)) : WrReport p :=
  ⟨BitVec.ofNat 32 (d.payload fr).length, d.tag, d.lastSide fr, wrError (worstResp rs)⟩

/-- The status that the responses are enough for. -/
def reports : List (WrDesc p × List (WrAxis p)) → List (BitVec 2) → List (WrReport p)
  | [], _ => []
  | (d, fr) :: js, rs =>
    if rs.length < (d.reached fr).length then []
    else d.report fr (rs.take (d.reached fr).length)
      :: reports js (rs.drop (d.reached fr).length)

section Settle

variable {d : WrDesc p} {fr : List (WrAxis p)} {bs : List AxiBurst} {es : List (WrEntry p)}
  {rs : List (BitVec 2)} {a : BitVec 2} {sts : List (WrReport p)}

/-- Before the last entry nothing is reported. -/
theorem settle_early (he : ∀ e ∈ es, e.last = false) (hlen : rs.length ≤ es.length) :
    (es.zip rs).foldl settle (a, sts)
      = (rs.foldl (fun a r => if respError r then r else a) a, sts) := by
  induction rs generalizing es a with
  | nil => rw [List.zip_nil_right]; rfl
  | cons r rs ih =>
    cases es with
    | nil => exact absurd hlen (Nat.not_succ_le_zero _)
    | cons e es =>
      have hlast := he e List.mem_cons_self
      rw [List.zip_cons_cons, List.foldl_cons, List.foldl_cons, settle, hlast,
        if_neg Bool.false_ne_true]
      exact ih (fun x hx => he x (List.mem_cons_of_mem _ hx)) (Nat.le_of_succ_le_succ hlen)

theorem settle_of_lt (he : Entries d fr bs es) (hlen : rs.length < bs.length) :
    ((es.zip rs).foldl settle (a, sts)).2 = sts := by
  obtain ⟨pre, e, rfl, hcount, hpre, _⟩ := he
  rw [zip_append_of_le (by omega), settle_early hpre (by omega)]

/-- With the last response the status is reported. -/
theorem settle_job (he : Entries d fr bs es) (hlen : rs.length = bs.length) (hfr : fr ≠ []) :
    (es.zip rs).foldl settle (0, sts) = (0, sts ++ [d.report fr rs]) := by
  obtain ⟨pre, e, rfl, hcount, hpre, hfinal⟩ := he
  have hrs : rs ≠ [] := by
    rintro rfl
    rw [← hcount] at hlen
    cases hlen
  obtain ⟨init, r, rfl⟩ : ∃ init r, rs = init ++ [r] :=
    ⟨rs.dropLast, rs.getLast hrs, (List.dropLast_append_getLast hrs).symm⟩
  rw [List.length_append, List.length_singleton] at hlen
  have hside : e.side = d.lastSide fr := by
    have hne : fr.take (d.lastWord + 1) ≠ [] := by
      rw [ne_eq, List.take_eq_nil_iff]
      rintro (h0 | hnil)
      · cases h0
      · exact hfr hnil
    have hlast := List.getLast?_eq_some_getLast hne
    rw [WrDesc.lastSide, hlast]
    exact hfinal.side _ hlast
  have hlength : e.len = BitVec.ofNat 32 (d.payload fr).length := by
    rw [← hfinal.len, BitVec.ofNat_toNat, BitVec.setWidth_eq]
  rw [List.zip_append (by omega), List.foldl_append, settle_early hpre (by omega)]
  show settle _ (e, r) = _
  rw [settle, hfinal.last, if_pos rfl, WrEntry.report, hlength, hfinal.tag, hside, WrDesc.report,
    worstResp, List.foldl_concat]

end Settle

/-! ### What has been recorded of the current job -/

/-- Of a job whose beats `fr` have come, bursts `bs` have been begun, entries `es` made and `n`
beats put out; whatever frame `fr` begins, they are those of this frame. -/
structure JobStage (d : WrDesc p) (fr : List (WrAxis p)) (bs : List AxiBurst)
    (es : List (WrEntry p)) (n : ℕ) : Prop where
  fits : d.Fits
  frame : Frame fr
  begun : bs <+: d.bursts
  le : n ≤ (bs.flatMap p.words).length
  none : fr = [] → n = 0 ∧ ∀ e ∈ es, e.last = false
  bursts : ∀ f, Complete f → fr <+: f → bs <+: d.reached f
  lanes : ∀ f, Complete f → fr <+: f → ∀ k < n, lanesAt p.strbWidth d.off (d.payload fr) k
    = lanesAt p.strbWidth d.off (d.payload f) k
  entries : ∀ f, Complete f → fr <+: f → Entries d f (d.reached f) es ∨
    es.length < (d.reached f).length ∧ ∀ e ∈ es, e.last = false

namespace WrControl

variable {s : WrControl p} {d : WrDesc p} {fr f : List (WrAxis p)} {bs : List AxiBurst}
  {es : List (WrEntry p)} {cur : WrLog p}

/-- The frame has a byte for the next word. -/
theorem Saves.le_endWord (h : Saves d fr s) (hf : Complete f) (hle : fr <+: f)
    (hk : fr.length ≤ d.lastWord) : fr.length ≤ d.endWord f := by
  refine Nat.le_min.mpr ⟨hk, (WrDesc.le_frameWord (hf.length_pos hf.ne_nil)).mpr ?_⟩
  cases he : frameEnded fr with
  | true =>
    have hfr : Complete fr := ⟨h.frame, he⟩
    rw [← hfr.eq_of_le hf.toFrame hle]
    exact h.left he
  | false =>
    obtain ⟨more, rfl⟩ := hle
    have hmore : more ≠ [] := by
      rintro rfl
      have hended := hf.ended
      rw [List.append_nil, he] at hended
      exact Bool.false_ne_true hended
    obtain ⟨b, more, rfl⟩ := List.exists_cons_of_ne_nil hmore
    have hpos := (hf.whole b (by simp)).length_pos
    rw [frameBytes_append, List.length_append, h.frame.length_bytes he, ← List.singleton_append,
      frameBytes_append, List.length_append, frameBytes_singleton]
    omega

/-- What comes does not change the words that are out. -/
theorem Saves.lanes (h : Saves d fr s) (hf : Complete f) (hle : fr <+: f) : ∀ k < fr.length,
    lanesAt p.strbWidth d.off (d.payload fr) k = lanesAt p.strbWidth d.off (d.payload f) k := by
  intro k hk
  cases he : frameEnded fr with
  | true =>
    have hfr : Complete fr := ⟨h.frame, he⟩
    rw [← hfr.eq_of_le hf.toFrame hle]
  | false =>
    obtain ⟨more, rfl⟩ := hle
    have hfull : (k + 1) * p.strbWidth ≤ (frameBytes fr).length + d.off := by
      rw [h.frame.length_bytes he]
      exact Nat.le_add_right_of_le (Nat.mul_le_mul_right _ hk)
    have hout : d.out (fr ++ more) [] k = d.out fr [] k := WrDesc.out_append_beats hfull
    exact (congrArg Prod.fst hout).symm

theorem Starting.stage (h : Starting d fr bs s) (count : es.length = bs.length)
    (early : ∀ e ∈ es, e.last = false) : JobStage d fr bs es fr.length := by
  have hall := WrDesc.length_words h.fits
  have hwords := h.words
  have hbs : bs <+: d.bursts := ⟨_, h.bursts.symm⟩
  have hlast : fr.length ≤ d.lastWord := by
    rw [h.bursts, List.flatMap_append, List.length_append, EngineParams.transfer_eq,
      List.flatMap_cons, List.length_append, AxisSystolic.length_words] at hall
    omega
  have hlt : ∀ f, Complete f → fr <+: f → bs.length < (d.reached f).length := by
    intro f hf hle
    have hend := h.toSaves.le_endWord hf hle hlast
    have hreach : d.endWord f < _ := WrDesc.endWord_lt h.fits
    exact length_lt_of_words (p := p) hbs WrDesc.reached_le (by omega)
  refine ⟨h.fits, h.frame, hbs, Nat.le_of_eq hwords.symm, ?_, ?_,
    fun f hf hle => h.toSaves.lanes hf hle, ?_⟩
  · rintro rfl
    exact ⟨rfl, early⟩
  · intro f hf hle
    exact List.prefix_of_prefix_length_le hbs WrDesc.reached_le (Nat.le_of_lt (hlt f hf hle))
  · intro f hf hle
    exact Or.inr ⟨count ▸ hlt f hf hle, early⟩

theorem Writing.stage (h : Writing d fr bs s) (count : es.length + 1 = bs.length)
    (early : ∀ e ∈ es, e.last = false) : JobStage d fr bs es fr.length := by
  have hwords := h.words
  have hbs : bs <+: d.bursts := ⟨_, h.bursts.symm⟩
  have hle' : ∀ f, Complete f → fr <+: f → bs.length ≤ (d.reached f).length := by
    intro f hf hle
    have hend := h.toSaves.le_endWord hf hle h.place.le
    have hreach : d.endWord f < _ := WrDesc.endWord_lt h.fits
    obtain ⟨pre, b, rfl, hpre⟩ := h.burst
    have hle : d.reached f <+: d.bursts := WrDesc.reached_le
    have := length_lt_of_words (p := p) ((List.prefix_append pre [b]).trans hbs) hle (by omega)
    rw [List.length_append, List.length_singleton]
    exact this
  refine ⟨h.fits, h.frame, hbs, by omega, ?_, ?_, fun f hf hle => h.toSaves.lanes hf hle, ?_⟩
  · rintro rfl
    exact ⟨rfl, early⟩
  · intro f hf hle
    exact List.prefix_of_prefix_length_le hbs WrDesc.reached_le (hle' f hf hle)
  · intro f hf hle
    have := hle' f hf hle
    exact Or.inr ⟨by omega, early⟩

/-- There is no current job, or one at some stage. -/
theorem Current.stage (h : Current s cur) : cur = WrLog.nil ∨ ∃ d fr bs es n,
    cur = ⟨[d], fr, bs, d.outs fr bs n, es⟩ ∧ JobStage d fr bs es n := by
  cases h with
  | idle state tready => exact Or.inl rfl
  | start d fr bs es h count early => exact Or.inr ⟨d, fr, bs, es, _, rfl, h.stage count early⟩
  | write d fr bs es h count early => exact Or.inr ⟨d, fr, bs, es, _, rfl, h.stage count early⟩
  | finish x n h done behind =>
    refine Or.inr ⟨x.desc, x.frame, x.bursts, x.entries, n, rfl, done.fits, done.frame.toFrame,
      WrDesc.reached_le, ?_, fun hnil => absurd hnil done.frame.ne_nil, ?_, ?_, ?_⟩
    · have := h.words
      omega
    all_goals
      intro f hf hle
      rw [← done.frame.eq_of_le hf.toFrame hle]
    · exact List.prefix_refl _
    · exact fun k _ => rfl
    · exact Or.inl done.entries
  | drop d fr es h fits enough long entries =>
    refine Or.inr ⟨d, fr, d.bursts, es, d.lastWord + 1, rfl, fits, h.frame,
      List.prefix_refl _, Nat.le_of_eq (WrDesc.length_words fits).symm, ?_, ?_, ?_, ?_⟩
    · rintro rfl
      exact absurd long (Nat.not_lt_zero _)
    all_goals
      intro f hf hle
      obtain ⟨more, rfl⟩ := hle
      have henough : d.len.toNat ≤ (frameBytes (fr ++ more)).length := by
        rw [frameBytes_append, List.length_append]
        exact Nat.le_add_right_of_le enough
    · rw [reached_of_enough fits henough]
    · intro k _
      rw [WrDesc.payload_append enough]
    · rw [reached_of_enough fits henough]
      exact Or.inl (entries.append enough long more)

end WrControl

/-! ### The jobs of a run -/

namespace WrEngine

open WrStatus (Keeps)

variable {s : WrEngine p} {frs : List (List (WrAxis p))} {ds : List (WrDesc p)}
  {bts : List (WrAxis p)} {aws : List AxiBurst} {gs : List (WrBeat p)} {rs : List (BitVec 2)}
  {sts : List (WrReport p)} {done : List (WrJob p)} {cur : WrLog p}

/-- The pairs of descriptors and frames are those of the jobs that are done, and the one of the
current job if its frame is known. -/
inductive Known (frs : List (List (WrAxis p))) (ds : List (WrDesc p)) (done : List (WrJob p))
    (cur : WrLog p) : Prop
  | all (pairs : ds.zip frs = done.map fun x => (x.desc, x.frame)) (outs : cur.outs = [])
      (early : ∀ e ∈ cur.entries, e.last = false)
  | next (d : WrDesc p) (f fr : List (WrAxis p)) (n : ℕ)
      (pairs : ds.zip frs = (done.map fun x => (x.desc, x.frame)) ++ [(d, f)])
      (stage : JobStage d fr cur.bursts cur.entries n) (outs : cur.outs = d.outs fr cur.bursts n)
      (frame : Complete f) (le : fr <+: f)

theorem Serves.known (h : Serves ds bts aws gs rs sts s) (hs : Sends frs ds bts) :
    ∃ done cur, (∀ x ∈ done, WrJob.Done x) ∧ Known frs ds done cur ∧
      (∀ b ∈ cur.bursts, p.Legal b) ∧
      aws ++ s.pending = done.flatMap WrJob.bursts ++ cur.bursts ∧
      gs.map WrBeat.out ++ s.heldOut = done.flatMap WrJob.outs ++ cur.outs ∧
      Keeps (aws ++ s.pending).length (done.flatMap WrJob.entries ++ cur.entries) rs sts
        s.status := by
  obtain ⟨_, _, done, cur, es, hdone, hcur, hlog, hkeeps⟩ := h
  have hentries : es = done.flatMap WrJob.entries ++ cur.entries := congrArg WrLog.entries hlog
  have hds : ds = done.map WrJob.desc ++ cur.descs := congrArg WrLog.descs hlog
  refine ⟨done, cur, hdone, ?_, ?_, congrArg WrLog.bursts hlog, congrArg WrLog.outs hlog,
    hentries ▸ hkeeps⟩
  swap
  · rcases hcur.stage with rfl | ⟨d, fr, bs, es', n, rfl, hstage⟩
    · exact nofun
    · exact fun b hb => EngineParams.transfer_legal hstage.fits.len b (hstage.begun.subset hb)
  rcases hcur.stage with rfl | ⟨d, fr, bs, es', n, rfl, hstage⟩
  · obtain ⟨rest, hfrs, _⟩ := hs.rest hdone Frame.nil (congrArg WrLog.beats hlog)
    refine .all ?_ rfl nofun
    rw [hds, hfrs, List.zip_append (by simp), List.zip_map']
    exact List.append_nil _
  · obtain ⟨rest, hfrs, hhead⟩ := hs.rest hdone hstage.frame (congrArg WrLog.beats hlog)
    have hpairs : ds.zip frs = (done.map fun x => (x.desc, x.frame)) ++ [d].zip rest := by
      rw [hds, hfrs, List.zip_append (by simp), List.zip_map']
    cases rest with
    | nil =>
      obtain ⟨rfl, hearly⟩ := hstage.none (List.prefix_nil.mp hhead)
      exact .all (hpairs.trans (List.append_nil _)) rfl hearly
    | cons f rest =>
      exact .next d f fr n hpairs hstage rfl (hs.frames f (by rw [hfrs]; simp)) hhead

/-! ### What is written -/

/-- Pairs of longer lists begin with those of shorter ones. -/
theorem zip_mono {α β : Type*} {as as' : List α} {bs bs' : List β} (ha : as <+: as')
    (hb : bs <+: bs') : as.zip bs <+: as'.zip bs' := by
  induction as generalizing as' bs bs' with
  | nil => exact List.nil_prefix
  | cons a as ih =>
    cases bs with
    | nil => exact List.nil_prefix
    | cons b bs =>
      obtain ⟨more, rfl⟩ := ha
      obtain ⟨more', rfl⟩ := hb
      exact List.cons_prefix_cons.mpr ⟨rfl, ih (List.prefix_append _ _) (List.prefix_append _ _)⟩

theorem zip_flatMap {α β γ : Type*} {l : List α} {f : α → List β} {g : α → List γ}
    (h : ∀ x ∈ l, (f x).length = (g x).length) (bs : List β) (cs : List γ) :
    (l.flatMap f ++ bs).zip (l.flatMap g ++ cs)
      = (l.flatMap fun x => (f x).zip (g x)) ++ bs.zip cs := by
  induction l with
  | nil => rfl
  | cons x l ih =>
    rw [List.flatMap_cons, List.flatMap_cons, List.flatMap_cons, List.append_assoc,
      List.append_assoc, List.zip_append (h x List.mem_cons_self),
      ih fun y hy => h y (List.mem_cons_of_mem _ hy), List.append_assoc]

theorem length_outs (x : WrJob p) : x.outs.length = (x.bursts.flatMap p.words).length := by
  rw [WrJob.outs, WrDesc.outs, List.length_map, List.length_range]

theorem Known.writes (h : Known frs ds done cur) (hdone : ∀ x ∈ done, WrJob.Done x) :
    ((done.flatMap WrJob.bursts ++ cur.bursts).flatMap p.words).zip
        ((done.flatMap WrJob.outs ++ cur.outs).map Prod.fst)
      <+: (ds.zip frs).flatMap fun x => x.1.writes x.2 := by
  have hjobs : (done.flatMap fun x => (x.bursts.flatMap p.words).zip (x.outs.map Prod.fst))
      = (done.map fun x => (x.desc, x.frame)).flatMap fun x => x.1.writes x.2 := by
    rw [List.flatMap_map]
    exact List.flatMap_congr fun x hx =>
      WrDesc.zip_words (hdone x hx).fits WrDesc.reached_le le_rfl
  rw [List.flatMap_append, List.flatMap_assoc, List.map_append, List.map_flatMap,
    zip_flatMap (fun x _ => by rw [List.length_map, length_outs]), hjobs]
  cases h with
  | all pairs outs early =>
    rw [pairs, outs, List.map_nil, List.zip_nil_right, List.append_nil]
  | next d f fr n pairs stage outs frame le =>
    have hbs := stage.bursts f frame le
    have hn : n ≤ ((d.reached f).flatMap p.words).length := by
      obtain ⟨more, hmore⟩ := hbs
      rw [← hmore, List.flatMap_append, List.length_append]
      exact Nat.le_add_right_of_le stage.le
    rw [pairs, List.flatMap_append, List.flatMap_singleton, outs,
      WrDesc.zip_words stage.fits (hbs.trans WrDesc.reached_le) stage.le,
      List.prefix_append_right_inj]
    have hwrite : (List.range n).map (d.write fr) = (List.range n).map (d.write f) := by
      apply List.map_congr_left
      intro k hk
      rw [WrDesc.write, WrDesc.write, stage.lanes f frame le k (List.mem_range.mp hk)]
    obtain ⟨more, hmore⟩ := Nat.exists_eq_add_of_le hn
    rw [hwrite, WrDesc.writes, hmore, List.range_add, List.map_append]
    exact List.prefix_append _ _

/-! ### The ends of the bursts -/

theorem map_snd_outs {d : WrDesc p} {fr : List (WrAxis p)} {bs : List AxiBurst} {n : ℕ}
    (hn : n ≤ (bs.flatMap p.words).length) :
    (d.outs fr bs n).map Prod.snd = (lastMarks bs).take n := by
  rw [← length_lastMarks] at hn
  apply List.ext_getElem?
  intro k
  rw [WrDesc.outs, List.map_map, List.getElem?_map, List.getElem?_take]
  by_cases hk : k < n
  · rw [List.getElem?_range hk, if_pos hk, Option.map_some]
    have hlt : k < (lastMarks bs).length := by omega
    show some ((lastMarks bs)[k]?.getD false) = _
    rw [List.getElem?_eq_getElem hlt]
    rfl
  · rw [List.getElem?_eq_none (by rw [List.length_range]; omega), if_neg hk]
    rfl

theorem Known.marks (h : Known frs ds done cur) :
    (done.flatMap WrJob.outs ++ cur.outs).map Prod.snd
      <+: lastMarks (done.flatMap WrJob.bursts ++ cur.bursts) := by
  have hjobs : (done.flatMap WrJob.outs).map Prod.snd = lastMarks (done.flatMap WrJob.bursts) := by
    rw [List.map_flatMap, lastMarks, List.flatMap_assoc]
    refine List.flatMap_congr fun x _ => ?_
    rw [WrJob.outs, map_snd_outs le_rfl, ← length_lastMarks p.toEngineParams, List.take_length]
    rfl
  rw [List.map_append, lastMarks_append, hjobs, List.prefix_append_right_inj]
  cases h with
  | all pairs outs early =>
    rw [outs]
    exact List.nil_prefix
  | next d f fr n pairs stage outs frame le =>
    rw [outs, map_snd_outs stage.le]
    exact List.take_prefix _ _

/-! ### What is reported in a run -/

/-- The jobs that are done, and then others. -/
theorem settle_jobs (hdone : ∀ x ∈ done, WrJob.Done x) {es : List (WrEntry p)}
    {js : List (WrDesc p × List (WrAxis p))}
    (hrest : ∀ rs' sts', rs'.length ≤ es.length →
      ((es.zip rs').foldl settle (0, sts')).2 = sts' ++ reports js rs')
    (hlen : rs.length ≤ (done.flatMap WrJob.entries ++ es).length) (sts : List (WrReport p)) :
    (((done.flatMap WrJob.entries ++ es).zip rs).foldl settle (0, sts)).2
      = sts ++ reports ((done.map fun x => (x.desc, x.frame)) ++ js) rs := by
  induction done generalizing rs sts with
  | nil => exact hrest rs sts hlen
  | cons x done ih =>
    have hx := hdone x List.mem_cons_self
    have hcount := hx.length_entries
    rw [List.flatMap_cons, List.append_assoc, List.map_cons, List.cons_append, reports]
    by_cases hlt : rs.length < (x.desc.reached x.frame).length
    · rw [if_pos hlt, zip_append_of_le (by rw [hcount]; exact Nat.le_of_lt hlt),
        settle_of_lt hx.entries hlt, List.append_nil]
    · have htake : (rs.take x.bursts.length).length = x.bursts.length :=
        List.length_take_of_le (Nat.le_of_not_lt hlt)
      rw [if_neg hlt]
      nth_rewrite 1 [← List.take_append_drop x.bursts.length rs]
      rw [List.zip_append (by rw [hcount, htake]), List.foldl_append,
        settle_job hx.entries htake hx.frame.ne_nil,
        ih (fun y hy => hdone y (List.mem_cons_of_mem _ hy))]
      · rw [List.append_assoc]
        rfl
      · rw [List.flatMap_cons, List.append_assoc, List.length_append, hcount] at hlen
        rw [List.length_drop]
        omega

/-- The status are those that the responses are enough for. -/
theorem Known.reports_eq (h : Known frs ds done cur) (hdone : ∀ x ∈ done, WrJob.Done x) {begun : ℕ}
    {t : WrStatus p} (hk : Keeps begun (done.flatMap WrJob.entries ++ cur.entries) rs sts t) :
    sts = reports (ds.zip frs) rs := by
  have hsettled := congrArg Prod.snd hk.settled
  have hjobs := fun js => @settle_jobs p rs done hdone (cur.entries) js
  cases h with
  | all pairs outs early =>
    have hall := hjobs [] (fun rs' sts' hlen => by
      rw [settle_early early hlen]
      exact (List.append_nil _).symm) hk.answered []
    rw [pairs, ← List.append_nil (done.map _)]
    exact hsettled.trans hall
  | next d f fr n pairs stage outs frame le =>
    have hall := hjobs [(d, f)] (fun rs' sts' hlen => by
      rw [reports]
      rcases stage.entries f frame le with he | ⟨hlt, early⟩
      · have hcount : cur.entries.length = (d.reached f).length := by
          obtain ⟨pre, e, hes, hpre, _⟩ := he
          rw [hes, List.length_append, List.length_singleton, hpre]
        by_cases hlt : rs'.length < (d.reached f).length
        · rw [if_pos hlt, settle_of_lt he hlt, List.append_nil]
        · have heq : rs'.length = (d.reached f).length := by omega
          rw [if_neg hlt, settle_job he heq frame.ne_nil, List.take_of_length_le (by omega)]
          rfl
      · rw [if_pos (by omega), settle_early early hlen, List.append_nil]) hk.answered []
    rw [pairs]
    exact hsettled.trans hall

/-! ### What the responses tell -/

/-- The status are of jobs all of whose bursts are answered. -/
theorem length_reported (js : List (WrDesc p × List (WrAxis p))) (rs : List (BitVec 2)) :
    ((js.take (reports js rs).length).flatMap fun x => x.1.reached x.2).length ≤ rs.length := by
  induction js generalizing rs with
  | nil => exact Nat.zero_le _
  | cons x js ih =>
    rw [reports]
    by_cases hlt : rs.length < (x.1.reached x.2).length
    · rw [if_pos hlt]
      exact Nat.zero_le _
    · have := ih (rs.drop (x.1.reached x.2).length)
      rw [if_neg hlt, List.length_cons, List.take_succ_cons, List.flatMap_cons, List.length_append]
      rw [List.length_drop] at this
      omega

theorem Known.bursts (h : Known frs ds done cur) : done.flatMap WrJob.bursts ++ cur.bursts
    <+: ((ds.zip frs).flatMap fun x => x.1.reached x.2) ++ cur.bursts := by
  have hjobs : done.flatMap WrJob.bursts
      = (done.map fun x => (x.desc, x.frame)).flatMap fun x => x.1.reached x.2 := by
    rw [List.flatMap_map]
    rfl
  cases h with
  | all pairs outs early =>
    rw [pairs, hjobs]
  | next d f fr n pairs stage outs frame le =>
    rw [pairs, hjobs, List.flatMap_append, List.flatMap_singleton, List.append_assoc,
      List.prefix_append_right_inj]
    exact (stage.bursts f frame le).trans (List.prefix_append _ _)

/-- With fewer beats than some bursts have, fewer of them have come to their end. -/
theorem count_lastMarks {l : List Bool} {bs : List AxiBurst} (hle : l <+: lastMarks bs)
    (hlt : l.length < (lastMarks bs).length) : l.count true < bs.length := by
  rcases List.eq_nil_or_concat bs with rfl | ⟨init, b, rfl⟩
  · exact absurd hlt (Nat.not_lt_zero _)
  · have hcount : ∀ bs : List AxiBurst, (lastMarks bs).count true = bs.length := by
      intro bs
      induction bs with
      | nil => rfl
      | cons c bs ih =>
        rw [← List.singleton_append, lastMarks_append, List.count_append, ih, lastMarks,
          List.flatMap_singleton, List.count_append, List.count_replicate, List.length_append]
        rfl
    have hend : lastMarks (init ++ [b])
        = (lastMarks init ++ List.replicate b.len.toNat false) ++ [true] := by
      rw [lastMarks_append, List.append_assoc]
      exact congrArg _ (List.flatMap_singleton ..)
    rw [List.concat_eq_append] at hle hlt ⊢
    rw [hend] at hle hlt
    rw [List.length_append, List.length_singleton] at hlt
    have hle' := List.prefix_of_prefix_length_le hle (List.prefix_append _ _)
      (Nat.le_of_lt_succ hlt)
    have := hle'.sublist.count_le true
    rw [List.count_append, hcount, List.count_replicate] at this
    rw [List.length_append, List.length_singleton]
    exact Nat.lt_succ_of_le this

end WrEngine

/-! ### Runs -/

section Runs

variable (v : ℕ → WithRstn (WrEngineIn p))

/-- The descriptors that have been taken in since the last reset. -/
def wrDescs (t : ℕ) : List (WrDesc p) := (wrEngine p).sinceReset v WrEngine.descTaken t

/-- The beats that have been taken since then. -/
def wrBeats (t : ℕ) : List (WrAxis p) := (wrEngine p).sinceReset v WrEngine.beatTaken t

/-- The bursts whose requests have been accepted since then. -/
def wrBursts (t : ℕ) : List AxiBurst := (wrEngine p).sinceReset v WrEngine.awTaken t

/-- The beats that have been given out since then. -/
def wrGiven (t : ℕ) : List (WrBeat p) := (wrEngine p).sinceReset v WrEngine.given t

/-- The responses that have been taken since then. -/
def wrResps (t : ℕ) : List (BitVec 2) := (wrEngine p).sinceReset v WrEngine.respTaken t

/-- The status that have been reported since then. -/
def wrStatus (t : ℕ) : List (WrReport p) :=
  (wrEngine p).sinceReset v (fun s _ => s.status.status) t

/-- The words that the memory has been told to write, with the lanes. -/
def wrWrites (t : ℕ) : List (ℕ × List (Option (BitVec 8))) :=
  ((wrBursts v t).flatMap p.words).zip
    ((wrGiven v t).map fun b => strobed p.strbWidth b.data b.strb)

/-- The descriptors whose status have been reported, with their frames. -/
def wrReported (frs : List (List (WrAxis p))) (t : ℕ) : List (WrDesc p × List (WrAxis p)) :=
  ((wrDescs v t).zip frs).take (wrStatus v t).length

variable {v}

theorem wrServes_run {frs : List (List (WrAxis p))} (t : ℕ)
    (hs : WrEngine.Sends frs (wrDescs v t) (wrBeats v t)) :
    WrEngine.Serves (wrDescs v t) (wrBeats v t) (wrBursts v t) (wrGiven v t) (wrResps v t)
      (wrStatus v t ++ (((wrEngine p).resettable.state v t).status.status).toList)
      ((wrEngine p).resettable.state v t) := by
  induction t with
  | zero => exact WrEngine.serves_reset
  | succ t ih =>
    cases hr : (v t).rstn with
    | false =>
      rw [wrDescs, wrBeats, wrBursts, wrGiven, wrResps, wrStatus,
        Machine.sinceReset_succ_of_reset hr, Machine.sinceReset_succ_of_reset hr,
        Machine.sinceReset_succ_of_reset hr, Machine.sinceReset_succ_of_reset hr,
        Machine.sinceReset_succ_of_reset hr, Machine.sinceReset_succ_of_reset hr,
        Machine.resettable_state_succ_of_reset hr]
      exact WrEngine.serves_reset
    | true =>
      rw [wrDescs, wrBeats, Machine.sinceReset_succ_of_rstn hr,
        Machine.sinceReset_succ_of_rstn hr] at hs
      have hstep := (ih hs.mono).step (v t).val hs
      rw [wrDescs, wrBeats, wrBursts, wrGiven, wrResps, wrStatus,
        Machine.sinceReset_succ_of_rstn hr, Machine.sinceReset_succ_of_rstn hr,
        Machine.sinceReset_succ_of_rstn hr, Machine.sinceReset_succ_of_rstn hr,
        Machine.sinceReset_succ_of_rstn hr, Machine.sinceReset_succ_of_rstn hr,
        Machine.resettable_state_succ_of_rstn hr]
      exact hstep

section Sent

variable {frs : List (List (WrAxis p))} {t : ℕ}
  (hs : WrEngine.Sends frs (wrDescs v t) (wrBeats v t))

include hs

theorem wrBursts_legal : ∀ b ∈ wrBursts v t, p.Legal b := by
  obtain ⟨done, cur, hdone, _, hlegal, hbursts, _⟩ := (wrServes_run t hs).known hs
  have hbegun : wrBursts v t <+: done.flatMap WrJob.bursts ++ cur.bursts := ⟨_, hbursts⟩
  intro b hb
  rcases List.mem_append.mp (hbegun.subset hb) with hb | hb
  · obtain ⟨x, hx, hbx⟩ := List.mem_flatMap.mp hb
    exact EngineParams.transfer_legal (hdone x hx).fits.len b (WrDesc.reached_le.subset hbx)
  · exact hlegal b hb

theorem wrGiven_marks : (wrGiven v t).map WrBeat.last
    <+: lastMarks (wrBursts v t ++ ((wrEngine p).resettable.state v t).pending) := by
  obtain ⟨_, _, _, hknown, _, hbursts, houts, _⟩ := (wrServes_run t hs).known hs
  have hmap := List.IsPrefix.map Prod.snd ⟨_, houts⟩
  rw [List.map_map] at hmap
  rw [hbursts]
  exact hmap.trans hknown.marks

theorem wrWrites_le :
    wrWrites v t <+: ((wrDescs v t).zip frs).flatMap (fun x => x.1.writes x.2) := by
  obtain ⟨_, _, hdone, hknown, _, hbursts, houts, _⟩ := (wrServes_run t hs).known hs
  have hmap := List.IsPrefix.map Prod.fst ⟨_, houts⟩
  rw [List.map_map] at hmap
  refine (WrEngine.zip_mono ?_ hmap).trans (hknown.writes hdone)
  rw [← hbursts, List.flatMap_append]
  exact List.prefix_append _ _

theorem wrStatus_eq : wrStatus v t ++ ((wrEngine p).resettable.state v t).status.status.toList
    = reports ((wrDescs v t).zip frs) (wrResps v t) := by
  obtain ⟨_, _, hdone, hknown, _, _, _, hkeeps⟩ := (wrServes_run t hs).known hs
  exact hknown.reports_eq hdone hkeeps

end Sent

/-- **The write engine writes the frames of its descriptors.**  The bursts are legal, and
each has as many beats as it says, the last one marked.  The words that the memory is told to
write are those of the descriptors, in order, with the bytes of their frames.  A status is
reported when the responses for all bursts of its descriptor have come, with the bytes that
were written and the last error. -/
theorem wrEngine_run (v : ℕ → WithRstn (WrEngineIn p)) (t : ℕ) (frs : List (List (WrAxis p)))
    (hs : WrEngine.Sends frs (wrDescs v t) (wrBeats v t)) :
    let s := (wrEngine p).resettable.state v t
    (∀ b ∈ wrBursts v t, p.Legal b) ∧
      (wrGiven v t).map WrBeat.last <+: lastMarks (wrBursts v t ++ s.pending) ∧
      wrWrites v t <+: ((wrDescs v t).zip frs).flatMap (fun x => x.1.writes x.2) ∧
      wrStatus v t ++ s.status.status.toList
        = reports ((wrDescs v t).zip frs) (wrResps v t) := by
  exact ⟨wrBursts_legal hs, wrGiven_marks hs, wrWrites_le hs, wrStatus_eq hs⟩

/-- What some jobs write, one after the other. -/
theorem writeAll_jobs {js : List (WrDesc p × List (WrAxis p))} (hfit : ∀ x ∈ js, x.1.Fits)
    (m : Memory) : writeAll p.strbWidth m (js.flatMap fun x => x.1.writes x.2)
      = js.foldl (fun m x => writeBytes m x.1.addr.toNat (x.1.payload x.2)) m := by
  induction js generalizing m with
  | nil => rfl
  | cons x js ih =>
    rw [List.flatMap_cons, writeAll_append, WrDesc.writeAll_writes (hfit x List.mem_cons_self),
      ih fun y hy => hfit y (List.mem_cons_of_mem _ hy), List.foldl_cons]

theorem length_writes (js : List (WrDesc p × List (WrAxis p))) :
    (js.flatMap fun x => x.1.writes x.2).length
      = ((js.flatMap fun x => x.1.reached x.2).flatMap p.words).length := by
  rw [List.flatMap_assoc, List.length_flatMap, List.length_flatMap]
  simp [WrDesc.writes]

section Reported

variable {frs : List (List (WrAxis p))} {t : ℕ}
  (hs : WrEngine.Sends frs (wrDescs v t) (wrBeats v t))
  (haw : (wrResps v t).length ≤ (wrBursts v t).length)

include hs in
theorem reported_answered :
    ((wrReported v frs t).flatMap fun x => x.1.reached x.2).length ≤ (wrResps v t).length := by
  have hn : (wrStatus v t).length
      ≤ (reports ((wrDescs v t).zip frs) (wrResps v t)).length := by
    rw [← wrStatus_eq hs, List.length_append]
    exact Nat.le_add_right _ _
  have hreported := WrEngine.length_reported ((wrDescs v t).zip frs) (wrResps v t)
  obtain ⟨more, hmore⟩ := List.take_prefix_take_left (l := (wrDescs v t).zip frs) hn
  rw [← hmore, List.flatMap_append, List.length_append] at hreported
  exact Nat.le_trans (Nat.le_add_right _ _) hreported

include hs haw

/-- The requests for what is reported have been accepted. -/
theorem reported_begun :
    ((wrReported v frs t).flatMap fun x => x.1.reached x.2) <+: wrBursts v t := by
  obtain ⟨_, cur, _, hknown, _, hbursts, _⟩ := (wrServes_run t hs).known hs
  have hbegun : wrBursts v t
      <+: (((wrDescs v t).zip frs).flatMap fun x => x.1.reached x.2) ++ cur.bursts :=
    List.IsPrefix.trans ⟨_, hbursts⟩ hknown.bursts
  refine List.prefix_of_prefix_length_le ?_ hbegun (Nat.le_trans (reported_answered hs) haw)
  exact ((List.take_prefix _ _).flatMap _).trans (List.prefix_append _ _)

variable (hw : (wrResps v t).length ≤ ((wrGiven v t).map WrBeat.last).count true)

include hw

/-- And their beats have been given out. -/
theorem reported_given : (((wrReported v frs t).flatMap fun x => x.1.reached x.2).flatMap
    p.words).length ≤ (wrGiven v t).length := by
  by_contra hlt
  have hanswered := reported_answered hs
  have hmarks := wrGiven_marks hs
  obtain ⟨more, hmore⟩ := reported_begun hs haw
  rw [← length_lastMarks, Nat.not_le] at hlt
  rw [← hmore, List.append_assoc, lastMarks_append] at hmarks
  have hle := List.prefix_of_prefix_length_le hmarks (List.prefix_append _ _)
    (by rw [List.length_map]; exact Nat.le_of_lt hlt)
  have := WrEngine.count_lastMarks hle (by rw [List.length_map]; exact hlt)
  omega

/-- So the memory has been told to write all of it. -/
theorem reported_written :
    ((wrReported v frs t).flatMap fun x => x.1.writes x.2) <+: wrWrites v t := by
  refine List.prefix_of_prefix_length_le ((List.take_prefix _ _).flatMap _)
    (wrWrites_le hs) ?_
  have hgiven := reported_given hs haw hw
  obtain ⟨more, hmore⟩ := reported_begun hs haw
  rw [length_writes, wrWrites, List.length_zip, List.length_map, ← hmore, List.flatMap_append,
    List.length_append]
  omega

end Reported

/-- **What is reported has been written.**  If the memory answers a burst only when it has its
request and all its beats, then the payloads of all descriptors whose status has been reported
are in the memory, and beyond them it has only been told to write words of the ones after. -/
theorem wrEngine_memory (v : ℕ → WithRstn (WrEngineIn p)) (t : ℕ) (frs : List (List (WrAxis p)))
    (hs : WrEngine.Sends frs (wrDescs v t) (wrBeats v t))
    (haw : (wrResps v t).length ≤ (wrBursts v t).length)
    (hw : (wrResps v t).length ≤ ((wrGiven v t).map WrBeat.last).count true) (m : Memory) :
    let js := (wrDescs v t).zip frs
    let n := (wrStatus v t).length
    ∃ later, later <+: (js.drop n).flatMap (fun x => x.1.writes x.2) ∧
      writeAll p.strbWidth m (wrWrites v t) = writeAll p.strbWidth
        ((js.take n).foldl (fun m x => writeBytes m x.1.addr.toNat (x.1.payload x.2)) m) later := by
  intro js n
  obtain ⟨later, hlater⟩ := reported_written hs haw hw
  refine ⟨later, ?_, ?_⟩
  · have hwrites := wrWrites_le hs
    have hjs : wrReported v frs t ++ js.drop n = js := List.take_append_drop n js
    change _ <+: js.flatMap _ at hwrites
    rw [← hlater, ← hjs, List.flatMap_append, List.prefix_append_right_inj] at hwrites
    exact hwrites
  · have hfit : ∀ x ∈ wrReported v frs t, x.1.Fits := fun x hx =>
      hs.fits x.1 (List.of_mem_zip (List.mem_of_mem_take hx)).1
    rw [← hlater, writeAll_append, writeAll_jobs hfit]
    rfl

end Runs

/-- Six bytes for the last byte of a word and what follows. -/
def sixBack : WrDesc fourBytes := ⟨3, 6, 7⟩

/-- The bytes 1 to 6. -/
def sixFrame : List (WrAxis fourBytes) :=
  [⟨0x04030201, 0b1111, false, ⟨0, 0, 0⟩⟩, ⟨0x0605, 0b0011, true, ⟨0, 0, 0⟩⟩]

/-- The descriptor is offered, then the frame, and the burst is answered in cycle 9. -/
def writeSix : ℕ → WithRstn (WrEngineIn fourBytes) := fun t =>
  ⟨true,
    { desc := sixBack
      descValid := t == 1
      beat := (sixFrame[t - 3]?).getD ⟨0, 0, false, ⟨0, 0, 0⟩⟩
      valid := decide (t < 5)
      awready := true
      wready := true
      bresp := 0
      bvalid := t == 9
      enable := true }⟩

theorem writeSix_sends : WrEngine.Sends [sixFrame] (wrDescs writeSix 11) (wrBeats writeSix 11) := by
  have hdescs : wrDescs writeSix 11 = [sixBack] := rfl
  have hbeats : wrBeats writeSix 11 = sixFrame := rfl
  have hwhole : ∀ b ∈ sixFrame, WrAxis.Whole b := by
    intro b hb
    rcases List.mem_cons.mp hb with rfl | hb
    · exact ⟨⟨4, by decide, by decide, by decide⟩, fun _ => by decide⟩
    · obtain rfl := List.mem_singleton.mp hb
      exact ⟨⟨2, by decide, by decide, by decide⟩, fun h => by cases h⟩
  rw [hdescs, hbeats]
  refine ⟨?_, ?_, ?_, ?_⟩
  · intro d hd
    obtain rfl := List.mem_singleton.mp hd
    exact ⟨by decide, by decide⟩
  · intro f hf
    obtain rfl := List.mem_singleton.mp hf
    exact ⟨⟨hwhole, by decide⟩, by decide⟩
  · rw [List.flatten_singleton]
  · intro x hx
    obtain rfl := List.mem_singleton.mp hx
    exact Or.inl (by decide)

theorem writeSix_run : (wrGiven writeSix 11).length = 3 ∧
    (wrStatus writeSix 11).map (fun x => (x.len, x.tag, x.error)) = [(6, 7, 0)] ∧
    wrWrites writeSix 11 <+: sixBack.writes sixFrame := by
  have hrun := (wrEngine_run writeSix 11 [sixFrame] writeSix_sends).2.2.1
  have hdescs : wrDescs writeSix 11 = [sixBack] := rfl
  rw [hdescs] at hrun
  exact ⟨by decide +kernel, by decide +kernel, by simpa using hrun⟩

theorem writeSix_memory : writeAll 4 (fun _ => 0) (wrWrites writeSix 11)
    = writeBytes (fun _ => 0) 3 [1, 2, 3, 4, 5, 6] := by
  obtain ⟨later, hlater, hmem⟩ := wrEngine_memory writeSix 11 [sixFrame] writeSix_sends
    (by decide +kernel) (by decide +kernel) (fun _ => 0)
  have hstatus : (wrStatus writeSix 11).length = 1 := by decide +kernel
  have hdescs : wrDescs writeSix 11 = [sixBack] := rfl
  have hpayload : sixBack.payload sixFrame = [1, 2, 3, 4, 5, 6] := by decide +kernel
  rw [hstatus, hdescs] at hlater hmem
  obtain rfl := List.prefix_nil.mp hlater
  refine hmem.trans ?_
  show writeBytes _ 3 (sixBack.payload sixFrame) = _
  rw [hpayload]

end AxisSystolic
