import AxisSystolic.Sync.Delay
import Mathlib.Algebra.BigOperators.Group.List.Basic

/-!
# Framed streams

A framed stream marks the last item of each frame.  `frames last l` cuts a
stream, oldest item first, into its complete frames.

Hardware keeps a history instead: one item for each clock edge that moved it,
newest first, and some of the items are bubbles.  On a history, `fresh h` says
that the next item starts a frame, `current h` is the frame of the newest item
(newest first), and `ends h` lists the histories at which a frame was complete,
oldest first.  `frames_eq_ends` says that these are the frames.  A restarting
accumulator holds `((current h).map f).sum` (`sum_current_cons`).
-/

namespace Sync

variable {α : Type*}

/-! ### Streams -/

/-- The complete frames of a stream, where `cur` is the frame being read. -/
def framesFrom (last : α → Bool) : List α → List α → List (List α)
  | _, [] => []
  | cur, b :: l =>
    if last b then (cur ++ [b]) :: framesFrom last [] l else framesFrom last (cur ++ [b]) l

/-- The complete frames of a stream. -/
def frames (last : α → Bool) (l : List α) : List (List α) := framesFrom last [] l

/-- The items after the last complete frame, where `cur` is the frame being read. -/
def restFrom (last : α → Bool) : List α → List α → List α
  | cur, [] => cur
  | cur, b :: l => if last b then restFrom last [] l else restFrom last (cur ++ [b]) l

/-- The items of a stream after its last complete frame. -/
def rest (last : α → Bool) (l : List α) : List α := restFrom last [] l

theorem framesFrom_append (last : α → Bool) (l₁ : List α) (cur l₂ : List α) :
    framesFrom last cur (l₁ ++ l₂)
      = framesFrom last cur l₁ ++ framesFrom last (restFrom last cur l₁) l₂ := by
  induction l₁ generalizing cur with
  | nil => rfl
  | cons b l ih =>
    by_cases hb : last b <;> simp [framesFrom, restFrom, hb, ih]

theorem restFrom_append (last : α → Bool) (l₁ : List α) (cur l₂ : List α) :
    restFrom last cur (l₁ ++ l₂) = restFrom last (restFrom last cur l₁) l₂ := by
  induction l₁ generalizing cur with
  | nil => rfl
  | cons b l ih =>
    by_cases hb : last b <;> simp [restFrom, hb, ih]

theorem frames_append (last : α → Bool) (l₁ l₂ : List α) :
    frames last (l₁ ++ l₂) = frames last l₁ ++ framesFrom last (rest last l₁) l₂ :=
  framesFrom_append last l₁ [] l₂

theorem frames_snoc (last : α → Bool) (l : List α) (b : α) :
    frames last (l ++ [b])
      = frames last l ++ if last b then [rest last l ++ [b]] else [] := by
  rw [frames_append]
  by_cases hb : last b <;> simp [framesFrom, hb]

theorem rest_snoc (last : α → Bool) (l : List α) (b : α) :
    rest last (l ++ [b]) = if last b then [] else rest last l ++ [b] := by
  rw [rest, restFrom_append]
  by_cases hb : last b <;> simp [restFrom, rest, hb]

/-- Reading on only adds frames. -/
theorem frames_mono (last : α → Bool) {l₁ l₂ : List α} (h : l₁ <+: l₂) :
    frames last l₁ <+: frames last l₂ := by
  obtain ⟨l, rfl⟩ := h
  rw [frames_append]
  exact List.prefix_append _ _

theorem flatten_framesFrom (last : α → Bool) (l cur : List α) :
    (framesFrom last cur l).flatten ++ restFrom last cur l = cur ++ l := by
  induction l generalizing cur with
  | nil => simp [framesFrom, restFrom]
  | cons b l ih =>
    by_cases hb : last b <;> simp [framesFrom, restFrom, hb, ih]

/-- Nothing is lost by cutting. -/
theorem flatten_frames (last : α → Bool) (l : List α) :
    (frames last l).flatten ++ rest last l = l :=
  flatten_framesFrom last l []

/-! ### Streams made of frames -/

/-- `l` is one frame. -/
def IsFrame (last : α → Bool) (l : List α) : Prop :=
  ∃ init b, l = init ++ [b] ∧ last b = true ∧ ∀ a ∈ init, last a = false

theorem IsFrame.framesFrom_append {last : α → Bool} {l : List α} (hl : IsFrame last l)
    (cur l' : List α) : framesFrom last cur (l ++ l') = (cur ++ l) :: frames last l' := by
  obtain ⟨init, b, rfl, hb, hinit⟩ := hl
  induction init generalizing cur with
  | nil => simp [framesFrom, hb, frames]
  | cons a init ih =>
    have ha : last a = false := hinit a (by simp)
    rw [List.cons_append, List.cons_append, framesFrom, if_neg (by simp [ha]),
      ih (cur ++ [a]) fun x hx => hinit x (by simp [hx])]
    simp

/-- Laid end to end, frames are cut where they were joined. -/
theorem frames_flatMap {β : Type*} {last : α → Bool} {f : β → List α}
    (hf : ∀ b, IsFrame last (f b)) (l : List β) : frames last (l.flatMap f) = l.map f := by
  induction l with
  | nil => rfl
  | cons b l ih =>
    rw [List.flatMap_cons, frames, (hf b).framesFrom_append, ih, List.nil_append, List.map_cons]

/-- A frame with its last item marked. -/
def mark : List α → List (α × Bool)
  | [] => []
  | [a] => [(a, true)]
  | a :: b :: l => (a, false) :: mark (b :: l)

theorem mark_map {β : Type*} (f : α → β) (l : List α) :
    mark (l.map f) = (mark l).map fun a => (f a.1, a.2) := by
  induction l using mark.induct with
  | case1 => rfl
  | case2 a => rfl
  | case3 a b l ih =>
    rw [List.map_cons] at ih
    simp only [List.map_cons, mark, ih]

theorem map_fst_mark (l : List α) : (mark l).map Prod.fst = l := by
  induction l using mark.induct with
  | case1 => rfl
  | case2 a => rfl
  | case3 a b l ih => rw [mark, List.map_cons, ih]

theorem mark_concat (l : List α) (a : α) : mark (l ++ [a]) = l.map (·, false) ++ [(a, true)] := by
  induction l with
  | nil => rfl
  | cons b l ih =>
    cases l with
    | nil => rfl
    | cons c l => exact congrArg ((b, false) :: ·) ih

theorem isFrame_mark {l : List α} (hl : l ≠ []) : IsFrame Prod.snd (mark l) := by
  induction l using mark.induct with
  | case1 => exact absurd rfl hl
  | case2 a => exact ⟨[], (a, true), rfl, rfl, by simp⟩
  | case3 a b l ih =>
    obtain ⟨init, e, heq, he, hinit⟩ := ih (by simp)
    refine ⟨(a, false) :: init, e, by rw [mark, heq, List.cons_append], he, ?_⟩
    simpa using hinit

/-! ### Histories -/

variable (valid last : α → Bool)

/-- The next item of the stream starts a frame. -/
def fresh : List α → Bool
  | [] => true
  | b :: h => if valid b then last b else fresh h

/-- The frame of the newest item, as far as it goes, newest item first. -/
def current : List α → List α
  | [] => []
  | b :: h =>
    if valid b then b :: (if fresh valid last h then [] else current h) else current h

/-- The histories at which a frame was complete, oldest first. -/
def ends : List α → List (List α)
  | [] => []
  | b :: h => if valid b && last b then ends h ++ [b :: h] else ends h

@[simp] theorem fresh_nil : fresh valid last [] = true := rfl
@[simp] theorem ends_nil : ends valid last [] = [] := rfl

variable {valid last}

theorem ends_cons_of_end {b : α} {h : List α} (hb : (valid b && last b) = true) :
    ends valid last (b :: h) = ends valid last h ++ [b :: h] := by
  rw [ends, if_pos hb]

theorem ends_cons_of_not_end {b : α} {h : List α} (hb : (valid b && last b) = false) :
    ends valid last (b :: h) = ends valid last h := by
  rw [ends, if_neg (by simp [hb])]

theorem ends_prefix_cons (b : α) (h : List α) :
    ends valid last h <+: ends valid last (b :: h) := by
  cases hb : valid b && last b with
  | true => rw [ends_cons_of_end hb]; exact List.prefix_append _ _
  | false => exact (ends_cons_of_not_end hb).symm ▸ List.prefix_refl _

/-- `fresh` looks at the items one at a time, bubbles past the end included. -/
theorem fresh_drop {idle : α} (hi : valid idle = false) (h : List α) (n : ℕ) :
    fresh valid last (h.drop n)
      = if valid (nth idle h n) then last (nth idle h n) else fresh valid last (h.drop (n + 1)) := by
  rcases Nat.lt_or_ge n h.length with hn | hn
  · rw [drop_eq_nth_cons idle hn, fresh]
  · rw [nth_of_le hn, hi, List.drop_eq_nil_of_le hn, List.drop_eq_nil_of_le (by omega)]
    rfl

/-! ### Accumulators -/

section Sum

variable {β : Type*} [AddCommMonoid β] (f : α → β)

theorem sum_current_cons (b : α) (h : List α) :
    ((current valid last (b :: h)).map f).sum
      = if valid b then f b + (if fresh valid last h then 0 else ((current valid last h).map f).sum)
        else ((current valid last h).map f).sum := by
  cases hb : valid b <;> cases hf : fresh valid last h <;> simp [current, hb, hf]

/-- A restarting accumulator reads the items one at a time. -/
theorem sum_current_drop {idle : α} (hi : valid idle = false) (h : List α) (n : ℕ) :
    ((current valid last (h.drop n)).map f).sum
      = if valid (nth idle h n) then
          f (nth idle h n) + (if fresh valid last (h.drop (n + 1)) then 0
            else ((current valid last (h.drop (n + 1))).map f).sum)
        else ((current valid last (h.drop (n + 1))).map f).sum := by
  rcases Nat.lt_or_ge n h.length with hn | hn
  · rw [drop_eq_nth_cons idle hn, sum_current_cons]
  · rw [nth_of_le hn, hi, List.drop_eq_nil_of_le hn, List.drop_eq_nil_of_le (by omega)]
    rfl

end Sum

/-! ### Histories and streams -/

/-- The stream a history has read: its items in order, without the bubbles. -/
def stream (valid : α → Bool) (h : List α) : List α := (h.filter valid).reverse

theorem stream_cons_of_valid {b : α} {h : List α} (hb : valid b = true) :
    stream valid (b :: h) = stream valid h ++ [b] := by
  simp [stream, hb]

theorem stream_cons_of_bubble {b : α} {h : List α} (hb : valid b = false) :
    stream valid (b :: h) = stream valid h := by
  simp [stream, hb]

/-- The frame being read is the current one, unless the next item starts afresh. -/
theorem rest_stream (h : List α) :
    rest last (stream valid h) = if fresh valid last h then [] else (current valid last h).reverse := by
  induction h with
  | nil => rfl
  | cons b h ih =>
    cases hb : valid b with
    | false => rw [stream_cons_of_bubble hb, ih]; simp [fresh, current, hb]
    | true =>
      rw [stream_cons_of_valid hb, rest_snoc, ih]
      cases hl : last b <;> cases hf : fresh valid last h <;> simp [fresh, current, hb, hl, hf]

/-- **The complete frames of the stream are the current frames at the ends.** -/
theorem frames_eq_ends (h : List α) :
    frames last (stream valid h)
      = (ends valid last h).map fun e => (current valid last e).reverse := by
  induction h with
  | nil => rfl
  | cons b h ih =>
    cases hb : valid b with
    | false =>
      rw [stream_cons_of_bubble hb, ih, ends_cons_of_not_end (by simp [hb])]
    | true =>
      rw [stream_cons_of_valid hb, frames_snoc, ih, rest_stream]
      cases hl : last b with
      | false => rw [ends_cons_of_not_end (by simp [hl])]; simp
      | true =>
        rw [ends_cons_of_end (by simp [hb, hl]), List.map_append]
        cases hf : fresh valid last h <;> simp [current, hb, hf]

/-! ### When a frame was complete -/

/-- The length of a history is the number of its clock edge, so `e.length` for
`e ∈ ends h` is the edge that completed the frame. -/
theorem length_le_of_mem_ends {h e : List α} (he : e ∈ ends valid last h) :
    e.length ≤ h.length := by
  induction h with
  | nil => simp at he
  | cons b h ih =>
    cases hb : valid b && last b with
    | false =>
      rw [ends_cons_of_not_end hb] at he
      exact Nat.le_succ_of_le (ih he)
    | true =>
      rw [ends_cons_of_end hb, List.mem_append, List.mem_singleton] at he
      rcases he with he | rfl
      · exact Nat.le_succ_of_le (ih he)
      · exact Nat.le_refl _

/-- Frames are completed one after the other. -/
theorem ends_length_lt {h : List α} {p q : ℕ} {e e' : List α} (hpq : p < q)
    (he : (ends valid last h)[p]? = some e) (he' : (ends valid last h)[q]? = some e') :
    e.length < e'.length := by
  induction h with
  | nil => simp at he
  | cons b h ih =>
    cases hb : valid b && last b with
    | false =>
      rw [ends_cons_of_not_end hb] at he he'
      exact ih he he'
    | true =>
      rw [ends_cons_of_end hb] at he he'
      have hq := (List.getElem?_eq_some_iff.mp he').1
      rw [List.length_append, List.length_singleton] at hq
      rw [List.getElem?_append_left (by omega)] at he
      rcases Nat.lt_or_ge q (ends valid last h).length with hlt | hge
      · rw [List.getElem?_append_left hlt] at he'
        exact ih he he'
      · obtain rfl : q = (ends valid last h).length := by omega
        rw [List.getElem?_concat_length, Option.some.injEq] at he'
        subst he'
        exact Nat.lt_succ_of_le (length_le_of_mem_ends (List.mem_of_getElem? he))

/-- The item `n` shifts ago completed a frame if and only if the history was at
an end then. -/
theorem end_iff_mem_ends {idle : α} (hi : valid idle = false) (h : List α) (n : ℕ) :
    (valid (nth idle h n) && last (nth idle h n)) = true
      ↔ ∃ e ∈ ends valid last h, h.length = e.length + n := by
  induction h generalizing n with
  | nil => simp [hi]
  | cons b h ih =>
    have hnew : ∀ e ∈ ends valid last h, e.length ≤ h.length := fun e => length_le_of_mem_ends
    cases n with
    | zero =>
      rw [nth_zero]
      refine ⟨?_, ?_⟩
      · intro hb
        exact ⟨b :: h, by rw [ends_cons_of_end hb]; simp, rfl⟩
      · rintro ⟨e, he, hlen⟩
        cases hb : valid b && last b with
        | true => rfl
        | false =>
          rw [ends_cons_of_not_end hb] at he
          have := hnew e he
          simp only [List.length_cons, Nat.add_zero] at hlen
          omega
    | succ n =>
      rw [nth_succ, ih]
      refine ⟨?_, ?_⟩
      · rintro ⟨e, he, hlen⟩
        exact ⟨e, (ends_prefix_cons b h).subset he, by simp only [List.length_cons]; omega⟩
      · rintro ⟨e, he, hlen⟩
        simp only [List.length_cons] at hlen
        refine ⟨e, ?_, by omega⟩
        cases hb : valid b && last b with
        | false => rwa [ends_cons_of_not_end hb] at he
        | true =>
          rw [ends_cons_of_end hb, List.mem_append, List.mem_singleton] at he
          rcases he with he | rfl
          · exact he
          · simp only [List.length_cons] at hlen
            omega

/-- The history at an end is the newer history without the later items. -/
theorem eq_drop_of_mem_ends {h e : List α} (he : e ∈ ends valid last h) :
    e = h.drop (h.length - e.length) := by
  induction h with
  | nil => simp at he
  | cons b h ih =>
    have hstep : e ∈ ends valid last h → e = (b :: h).drop ((b :: h).length - e.length) := by
      intro he
      have hle := length_le_of_mem_ends he
      rw [List.length_cons, Nat.succ_sub hle, List.drop_succ_cons]
      exact ih he
    cases hb : valid b && last b with
    | false => exact hstep (by rwa [ends_cons_of_not_end hb] at he)
    | true =>
      rw [ends_cons_of_end hb, List.mem_append, List.mem_singleton] at he
      rcases he with he | rfl
      · exact hstep he
      · simp

end Sync
