import AxisSystolic.Engine.ReadProgress
import AxisSystolic.Top.AdapterAny

/-!
# From memory to the array (`top_axi.v`)

Each of the three operands has a channel: an `alex_axi_dma_rd` that reads it, and behind it
an `alex_axis_adapter_any` to the width of its bus.  The engine offers its beats from a
register, and the `ready` that it sees is that of the adapter.  So what the channel gives
out are the bytes of the memory, each descriptor as a packet, whatever the width of the bus
and whenever its receiver is ready.
-/

namespace AxisSystolic

open Sync Mem

/-- A channel, on wires of the width of the memory bus. -/
structure Mm2s where
  dma : AxiDmaParams
  adapter : AdapterAny
  side : SideParams
  /-- From the side wires of the engine to those of the adapter. -/
  sideWires : AxisSide dma.side → AxisSide side
  iDataWidth : ℤ
  iKeepWidth : ℤ
  wholeBytes : adapter.WholeBytes
  sData : adapter.sDataWidth = 8 * (dma.strbWidth : ℤ)
  fits : adapter.sDataWidth * adapter.mDataWidth < 2 ^ 31
  sKeepEnable : adapter.sKeepEnable = true
  mKeepEnable : adapter.mKeepEnable = true
  iData : Returns adapter.iDataWidth iDataWidth
  iKeep : Returns adapter.iKeepWidth iKeepWidth

namespace Mm2s

variable (c : Mm2s)

/-- The wires `s_axis_mm2s_*`. -/
def wires (b : RdBeat c.dma) : c.adapter.SBeat c.side :=
  AxisBeat.connect ⟨b.tdata, b.tkeep, b.tlast, c.sideWires b.side⟩

abbrev stage : Stage (c.adapter.SBeat c.side) (c.adapter.MBeat c.side) :=
  c.adapter.stage c.side c.iDataWidth c.iKeepWidth

/-- The registers. -/
structure Regs where
  engine : RdEngine c.dma
  adapter : c.stage.Regs

variable {c} (s : c.Regs) (i : RdEngineIn c.dma)

/-- What the engine sees, with the `ready` of the adapter for that of its receiver. -/
def engineIn : RdEngineIn c.dma := { i with mReady := c.stage.ready s.adapter i.mReady }

/-- What the adapter sees. -/
def adapterIn : StageIn (c.adapter.SBeat c.side) :=
  ⟨⟨s.engine.out.mValid, c.wires s.engine.out.m.mAxis⟩, i.mReady⟩

/-- The beat that is given out. -/
def given : Option (c.adapter.MBeat c.side) := c.stage.given s.adapter (adapterIn s i)

/-- What is offered to the array. -/
def offer : Offer (c.adapter.MBeat c.side) := c.stage.offer s.adapter (adapterIn s i).offer

/-- The clocked machine. -/
def machine (c : Mm2s) : Machine c.Regs (RdEngineIn c.dma) where
  reset := ⟨(rdEngine c.dma).reset, c.stage.reset⟩
  step s i := ⟨s.engine.step (engineIn s i), c.stage.step s.adapter (adapterIn s i)⟩

/-! ### What the two parts see of a run -/

variable (v : ℕ → WithRstn (RdEngineIn c.dma))

def engineRun (t : ℕ) : WithRstn (RdEngineIn c.dma) :=
  ⟨(v t).rstn, engineIn (c.machine.resettable.state v t) (v t).val⟩

def adapterRun (t : ℕ) : WithRstn (StageIn (c.adapter.SBeat c.side)) :=
  ⟨(v t).rstn, adapterIn (c.machine.resettable.state v t) (v t).val⟩

theorem run_state (t : ℕ) : c.machine.resettable.state v t
    = ⟨rdState (engineRun v) t, c.stage.machine.resettable.state (adapterRun v) t⟩ := by
  induction t with
  | zero => rfl
  | succ t ih =>
    cases hr : (v t).rstn with
    | false =>
      have he : (engineRun v t).rstn = false := hr
      have ha : (adapterRun v t).rstn = false := hr
      rw [Machine.resettable_state_succ_of_reset hr, rdState,
        Machine.resettable_state_succ_of_reset he, Machine.resettable_state_succ_of_reset ha]
      rfl
    | true =>
      have he : (engineRun v t).rstn = true := hr
      have ha : (adapterRun v t).rstn = true := hr
      rw [Machine.resettable_state_succ_of_rstn hr, rdState,
        Machine.resettable_state_succ_of_rstn he, Machine.resettable_state_succ_of_rstn ha,
        engineRun, adapterRun, ih]
      rfl

theorem engine_state (t : ℕ) :
    (c.machine.resettable.state v t).engine = rdState (engineRun v) t := by
  rw [run_state]

theorem adapter_state (t : ℕ) : (c.machine.resettable.state v t).adapter
    = c.stage.machine.resettable.state (adapterRun v) t := by
  rw [run_state]

/-- What is given out between them is taken. -/
theorem taken_of_given (s : c.Regs) (i : RdEngineIn c.dma) :
    c.stage.taken s.adapter (adapterIn s i) = (s.engine.given (engineIn s i)).map c.wires := by
  show (if (s.engine.out.mValid && c.stage.ready s.adapter i.mReady) = true then _ else _)
    = Option.map _ (Option.map _
      (if (s.engine.out.mValid && c.stage.ready s.adapter i.mReady) = true then _ else _))
  cases s.engine.out.mValid && c.stage.ready s.adapter i.mReady <;> rfl

theorem taken_eq (t : ℕ) : c.stage.machine.sinceReset (adapterRun v) c.stage.taken t
    = (rdGiven (engineRun v) t).map c.wires := by
  induction t with
  | zero => rfl
  | succ t ih =>
    cases hr : (v t).rstn with
    | false =>
      have he : (engineRun v t).rstn = false := hr
      have ha : (adapterRun v t).rstn = false := hr
      rw [rdGiven, Machine.sinceReset_succ_of_reset ha, Machine.sinceReset_succ_of_reset he]
      rfl
    | true =>
      have he : (engineRun v t).rstn = true := hr
      have ha : (adapterRun v t).rstn = true := hr
      have hnow := taken_of_given (c.machine.resettable.state v t) (v t).val
      rw [adapter_state, engine_state] at hnow
      rw [Machine.sinceReset_succ_of_rstn ha, ih, rdGiven, rdGiven,
        Machine.sinceReset_succ_of_rstn he, List.map_append, List.append_cancel_left_eq]
      exact (congrArg Option.toList hnow).trans Option.toList_map

theorem given_eq (t : ℕ) : c.machine.sinceReset v given t
    = c.stage.machine.sinceReset (adapterRun v) c.stage.given t := by
  apply Stage.sinceReset_congr
  · exact fun _ => rfl
  · intro t
    rw [given, adapter_state]
    rfl

end Mm2s

/-! ### What is carried -/

/-- The bytes of a beat, and the end of the packet. -/
def RdOut.carried {p : AxiDmaParams} (o : RdOut p) : List (Option (BitVec 8)) :=
  o.bytes.map some ++ if o.last then [none] else []

/-- Cut into beats with the last one marked, bytes are one packet. -/
theorem carried_mark {ls : List (List (BitVec 8))} (h : ls ≠ []) :
    (mark ls).flatMap (fun b => b.1.map some ++ if b.2 then [none] else [])
      = ls.flatten.map some ++ [none] := by
  induction ls using mark.induct with
  | case1 => exact absurd rfl h
  | case2 a => simp [mark]
  | case3 a b l ih =>
    rw [mark, List.flatMap_cons, ih (List.cons_ne_nil _ _)]
    simp

/-- A descriptor as a packet: its bytes, and the end. -/
def RdDesc.packet {p : AxiDmaParams} (m : Memory) (d : RdDesc p) : List (Option (BitVec 8)) :=
  (bytes m d.addr.toNat d.len.toNat).map some ++ [none]

theorem RdDesc.Fits.carried_stream {p : AxiDmaParams} {d : RdDesc p} (h : d.Fits) (m : Memory) :
    (d.stream m).flatMap RdOut.carried = d.packet m := by
  have hW := EngineParams.strbWidth_pos (p := p.toEngineParams)
  have hne : beats p.strbWidth (bytes m d.addr.toNat d.len.toNat) ≠ [] := by
    intro hnil
    have hlen := congrArg List.length (flatten_beats hW (bytes m d.addr.toNat d.len.toNat))
    rw [hnil, length_bytes] at hlen
    have := h.len_pos
    exact absurd hlen (Nat.ne_of_lt this)
  rw [RdDesc.stream, List.flatMap_map]
  exact (carried_mark hne).trans (by rw [flatten_beats hW]; rfl)

theorem flatMap_packet {p : AxiDmaParams} {ds : List (RdDesc p)} (h : ∀ d ∈ ds, d.Fits)
    (m : Memory) :
    (ds.flatMap (RdDesc.stream m)).flatMap RdOut.carried = ds.flatMap (RdDesc.packet m) := by
  rw [List.flatMap_assoc]
  exact List.flatMap_congr fun d hd => (h d hd).carried_stream m

namespace Mm2s

variable {c : Mm2s}

theorem carried_wires (b : RdBeat c.dma) : (c.wires b).carried 8 = b.out.carried := by
  have hdata := c.sData
  have hkeep := c.wholeBytes.sKeep
  have hw : c.adapter.sDataWidth.toNat = 8 * c.dma.strbWidth := by omega
  have hk : c.adapter.sKeepWidth.toNat = c.dma.strbWidth := by omega
  rw [wires, carried_connect hw.symm hk.symm]
  rfl

theorem faithful (c : Mm2s) :
    c.stage.Faithful (AxisBeat.carried 8) (AxisBeat.carried 8) IsEnd :=
  c.adapter.stage_faithful c.wholeBytes c.fits c.sKeepEnable c.mKeepEnable c.iData c.iKeep

/-! ### Runs -/

section Runs

variable (v : ℕ → WithRstn (RdEngineIn c.dma))

/-- The descriptors that have been taken in since the last reset. -/
def descs (t : ℕ) : List (RdDesc c.dma) := rdDescs (engineRun v) t

/-- The bursts that have been requested since then. -/
def bursts (t : ℕ) : List AxiBurst := rdBursts (engineRun v) t

/-- The words that have been received since then. -/
def words (t : ℕ) : List (RdData.Word c.dma) := rdWords (engineRun v) t

/-- The bytes that have been given out since then, and the ends of the packets. -/
def gave (t : ℕ) : List (Option (BitVec 8)) :=
  (c.machine.sinceReset v given t).flatMap (AxisBeat.carried 8)

/-- Nothing is reset, the descriptors can be served, and neither the memory nor the array keeps
the channel waiting for ever. -/
structure Goes : Prop where
  rstn : ∀ t, (v t).rstn = true
  fits : ∀ t, ∀ d ∈ descs v t, d.Fits
  arready : ∀ t, ∃ m, t ≤ m ∧ (v m).val.arready = true
  mReady : ∀ t, ∃ m, t ≤ m ∧ (v m).val.mReady = true
  answered : ∀ t, (words v t).length < ((bursts v t).flatMap c.dma.words).length →
    ∃ m, t ≤ m ∧ (v m).val.rvalid = true

variable {v} {m : Memory} {t : ℕ}

theorem Goes.flows (h : Goes v) : Stage.Flows (adapterRun v) := ⟨h.rstn, h.mReady⟩

theorem Goes.rdGoes (h : Goes v) : RdGoes (engineRun v) := by
  refine ⟨h.rstn, h.fits, h.arready, ?_, h.answered⟩
  intro t
  obtain ⟨m, hm, hr⟩ := c.faithful.lively _ h.flows t
  refine ⟨m, hm, ?_⟩
  rw [← adapter_state] at hr
  exact hr

theorem taken_carried : (c.stage.machine.sinceReset (adapterRun v) c.stage.taken t).flatMap
    (AxisBeat.carried 8) = ((rdGiven (engineRun v) t).map RdBeat.out).flatMap RdOut.carried := by
  rw [taken_eq, List.flatMap_map, List.flatMap_map]
  exact List.flatMap_congr fun b _ => carried_wires b

/-- What comes out begins the packets of the descriptors. -/
theorem gave_le (hfit : ∀ d ∈ descs v t, d.Fits)
    (hm : (words v t).map Prod.fst <+: answers m (bursts v t)) :
    gave v t <+: (descs v t).flatMap (RdDesc.packet m) := by
  have hgave := c.faithful.given_prefix (adapterRun v) t
  have hstream := (rdGiven_stream hfit hm).1
  rw [taken_carried] at hgave
  rw [gave, given_eq, ← flatMap_packet hfit]
  refine hgave.trans (List.IsPrefix.trans ?_ (hstream.flatMap RdOut.carried))
  rw [List.flatMap_append]
  exact List.prefix_append _ _

/-- And in the end they have come out. -/
theorem Goes.exists_gave (h : Goes v)
    (hm : ∀ t, (words v t).map Prod.fst <+: answers m (bursts v t)) (t : ℕ) :
    ∃ n, t ≤ n ∧ (descs v t).flatMap (RdDesc.packet m) <+: gave v n := by
  obtain ⟨k, hk, hstream⟩ := h.rdGoes.exists_stream hm t
  have htaken : (descs v t).flatMap (RdDesc.packet m)
      <+: (c.stage.machine.sinceReset (adapterRun v) c.stage.taken k).flatMap
        (AxisBeat.carried 8) := by
    rw [← flatMap_packet (h.fits t), taken_carried]
    exact hstream.flatMap RdOut.carried
  rcases List.eq_nil_or_concat (descs v t) with hnil | ⟨ds, d, hds⟩
  · rw [hnil]
    exact ⟨t, le_rfl, List.nil_prefix⟩
  · -- the last packet ends with a mark
    have hlast : (descs v t).flatMap (RdDesc.packet m)
        = (ds.flatMap (RdDesc.packet m) ++ (bytes m d.addr.toNat d.len.toNat).map some)
          ++ [none] := by
      rw [hds, List.concat_eq_append, List.flatMap_append, List.flatMap_singleton, RdDesc.packet,
        List.append_assoc]
    rw [hlast] at htaken ⊢
    obtain ⟨n, hn, hgave⟩ := c.faithful.delivers _ h.flows k _ none rfl htaken
    refine ⟨n, Nat.le_trans hk hn, ?_⟩
    rw [gave, given_eq]
    exact hgave

/-- The engine keeps what it offers. -/
theorem senderHolds : c.stage.SenderHolds (adapterRun v) := by
  intro t hr hv hno
  have hrun : (v t).rstn = true := hr
  rw [← adapter_state] at hno
  show (adapterIn (c.machine.resettable.state v (t + 1)) (v (t + 1)).val).offer
    = (adapterIn (c.machine.resettable.state v t) (v t).val).offer
  rw [Machine.resettable_state_succ_of_rstn hrun]
  obtain ⟨hvalid, hbeat⟩ := OutFifo.step_of_stall
    (i := (c.machine.resettable.state v t).engine.outIn
      (engineIn (c.machine.resettable.state v t) (v t).val)) hv hno
  exact congrArg₂ (fun o b => (⟨o, c.wires (RdBeat.mAxis b)⟩ : Offer _)) (hvalid.trans hv.symm)
    hbeat

theorem offer_stays (hr : (v t).rstn = true)
    (hv : (offer (c.machine.resettable.state v t) (v t).val).valid = true)
    (hno : (v t).val.mReady = false) :
    offer (c.machine.resettable.state v (t + 1)) (v (t + 1)).val
      = offer (c.machine.resettable.state v t) (v t).val := by
  rw [offer, adapter_state] at hv
  rw [offer, offer, adapter_state, adapter_state]
  exact c.faithful.steady.run (fun _ => trivial) senderHolds hr hv hno

end Runs

end Mm2s

/-- **A channel carries the bytes of the memory to the array.**  If the words that come are
those of a memory, what is given out are the bytes of the descriptors, in order, each
descriptor as a packet; and what is offered stays until it is taken.  If nothing waits for
ever, each packet comes out, and then the next descriptor is taken in. -/
theorem mm2s_run (c : Mm2s) (m : Memory) (v : ℕ → WithRstn (RdEngineIn c.dma))
    (hfit : ∀ t, ∀ d ∈ Mm2s.descs v t, d.Fits)
    (hm : ∀ t, (Mm2s.words v t).map Prod.fst <+: answers m (Mm2s.bursts v t)) :
    let s := c.machine.resettable.state v
    (∀ t, Mm2s.gave v t <+: (Mm2s.descs v t).flatMap (RdDesc.packet m)) ∧
    (∀ t, (v t).rstn = true → (Mm2s.offer (s t) (v t).val).valid = true →
      (v t).val.mReady = false →
      Mm2s.offer (s (t + 1)) (v (t + 1)).val = Mm2s.offer (s t) (v t).val) ∧
    (Mm2s.Goes v → (∀ t, ∃ n, t ≤ n ∧ (Mm2s.descs v t).flatMap (RdDesc.packet m)
        <+: Mm2s.gave v n) ∧
      ((∀ t, (v t).val.enable = true) →
        ∀ t, ∃ n, t ≤ n ∧ (s n).engine.request.descReady = true)) := by
  intro s
  refine ⟨fun t => Mm2s.gave_le (hfit t) (hm t), fun t => Mm2s.offer_stays, fun h =>
    ⟨h.exists_gave hm, fun hen t => ?_⟩⟩
  obtain ⟨n, hn, hready⟩ := h.rdGoes.exists_descReady hen t
  refine ⟨n, hn, ?_⟩
  rw [← Mm2s.engine_state] at hready
  exact hready

/-- A channel from words of four bytes to words of three. -/
def fourToThreeChannel : Mm2s where
  dma := fourBytes
  adapter := fourToThree
  side := noSide
  sideWires := id
  iDataWidth := 96
  iKeepWidth := 12
  wholeBytes := ⟨by decide, by decide, by decide, by decide⟩
  sData := rfl
  fits := by decide
  sKeepEnable := rfl
  mKeepEnable := rfl
  iData := lcm_returns_lcm (x := 32) (y := 24) (by decide) (by decide) (by decide)
  iKeep := lcm_returns_lcm (x := 4) (y := 3) (by decide) (by decide) (by decide)

namespace ReadSix

/-- The run `readSix` of the engine, in the channel. -/
abbrev run : ℕ → WithRstn (RdEngineIn fourToThreeChannel.dma) := readSix

theorem fits {t : ℕ} : ∀ d ∈ Mm2s.descs run t, d.Fits := by
  intro d hd
  obtain ⟨_, _, rfl⟩ := exists_offered hd
  show sixBytes.Fits
  exact ⟨by decide, by decide⟩

/-- No other descriptor is offered. -/
theorem descs_eq {t : ℕ} (ht : 7 ≤ t) : Mm2s.descs run t = [sixBytes] := by
  induction t, ht using Nat.le_induction with
  | base => rfl
  | succ t ht ih =>
    have hvalid : (Mm2s.engineRun run t).val.descValid = false := beq_false_of_ne (by omega)
    exact (rdDescs_succ_of_not_offered rfl hvalid).trans ih

/-- No other word comes. -/
theorem words_eq {t : ℕ} (ht : 7 ≤ t) : Mm2s.words run t = Mm2s.words run 7 := by
  induction t, ht using Nat.le_induction with
  | base => rfl
  | succ t ht ih =>
    have hvalid : (Mm2s.engineRun run t).val.rvalid = false := decide_eq_false (by omega)
    exact (rdWords_succ_of_not_valid rfl hvalid).trans ih

theorem answered (t : ℕ) : (Mm2s.words run t).map Prod.fst
    <+: answers countUp (Mm2s.bursts run t) := by
  have hfirst : ∀ t < 8, (Mm2s.words run t).map Prod.fst
      <+: answers countUp (Mm2s.bursts run t) := by decide +kernel
  rcases Nat.lt_or_ge t 8 with ht | ht
  · exact hfirst t ht
  · have hle : Mm2s.bursts run 7 <+: Mm2s.bursts run t :=
      Machine.sinceReset_mono (fun _ => rfl) _ (by omega)
    rw [words_eq (by omega)]
    exact (hfirst 7 (by decide)).trans ((hle.flatMap _).map _)

theorem goes : Mm2s.Goes run := by
  refine ⟨fun _ => rfl, fun t => fits, fun t => ⟨t, le_rfl, rfl⟩, fun t => ⟨t, le_rfl, rfl⟩, ?_⟩
  intro t hlt
  rcases Nat.lt_or_ge t 7 with ht | ht
  · exact ⟨6, by omega, rfl⟩
  · -- all words have come
    have hwords : (Mm2s.words run 7).length = 3 := by decide +kernel
    have hall : (sixBytes.bursts.flatMap fourBytes.words).length = 3 := by decide
    have hbursts := rdDescs_bursts (v := Mm2s.engineRun run) (t := t) fits
    have hle : Mm2s.bursts run t <+: sixBytes.bursts := by
      have hds : (Mm2s.descs run t).flatMap RdDesc.bursts = sixBytes.bursts := by
        rw [descs_eq ht]
        exact List.flatMap_singleton ..
      rw [← hds, Mm2s.descs, hbursts, List.append_assoc]
      exact List.prefix_append _ _
    have hlen := (hle.flatMap fourBytes.words).length_le
    rw [words_eq ht, hwords] at hlt
    rw [hall] at hlen
    exact absurd hlt (Nat.not_lt.mpr hlen)

end ReadSix

/-- The six bytes come out as one packet, in words of three. -/
theorem readSix_channel : ∃ n, 7 ≤ n ∧
    [some 3, some 4, some 5, some 6, some 7, some 8, none] <+: Mm2s.gave ReadSix.run n := by
  have hrun := mm2s_run fourToThreeChannel countUp ReadSix.run (fun _ => ReadSix.fits)
    ReadSix.answered
  obtain ⟨n, hn, hgave⟩ := (hrun.2.2 ReadSix.goes).1 7
  rw [ReadSix.descs_eq le_rfl] at hgave
  exact ⟨n, hn, hgave⟩

end AxisSystolic
