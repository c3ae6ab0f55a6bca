import Mathlib.Data.List.Basic
import Mathlib.Data.Nat.Notation
import Mathlib.Tactic.Use

/-!
# Lists of blocks

A stream of frames of one length `C` is read by position: item `C * n + k` is
item `k` of block `n`.  Where the block of an entry depends on the entries before
it, the stream is `blocks f xs`.
-/

namespace Sync

variable {α β : Type*} {f : α → List β} {C : ℕ}

theorem getElem?_flatMap_block (hf : ∀ a, (f a).length = C) (l : List α) (n : ℕ) {k : ℕ}
    (hk : k < C) : (l.flatMap f)[C * n + k]? = l[n]?.bind fun a => (f a)[k]? := by
  induction l generalizing n with
  | nil => rfl
  | cons a l ih =>
    rw [List.flatMap_cons]
    cases n with
    | zero =>
      rw [Nat.mul_zero, Nat.zero_add, List.getElem?_append_left (by rw [hf]; exact hk)]
      rfl
    | succ n =>
      have hge : (f a).length ≤ C * (n + 1) + k := by rw [hf, Nat.mul_succ]; omega
      have hidx : C * (n + 1) + k - C = C * n + k := by rw [Nat.mul_succ]; omega
      rw [List.getElem?_append_right hge, hf, hidx, ih n]
      rfl

/-! ### Marks -/

/-- Every `C`-th item is marked, and no other. -/
def MarksEvery (C : ℕ) (l : List Bool) : Prop := ∀ j, (h : j < l.length) → (l[j] = true ↔ C ∣ j + 1)

instance (C : ℕ) (l : List Bool) : Decidable (MarksEvery C l) :=
  inferInstanceAs (Decidable (∀ j, (h : j < l.length) → (l[j] = true ↔ C ∣ j + 1)))

theorem marksEvery_nil (C : ℕ) : MarksEvery C [] := fun j h => absurd h (Nat.not_lt_zero j)

theorem marksEvery_snoc {l : List Bool} {b : Bool} :
    MarksEvery C (l ++ [b]) ↔ MarksEvery C l ∧ (b = true ↔ C ∣ l.length + 1) := by
  refine ⟨?_, ?_⟩
  · intro h
    refine ⟨fun j hj => ?_, ?_⟩
    · rw [← h j (by simp; omega), List.getElem_append_left hj]
    · rw [← h l.length (by simp), List.getElem_concat_length rfl]
  · rintro ⟨h, hb⟩ j hj
    rw [List.length_append, List.length_singleton] at hj
    rcases Nat.lt_or_ge j l.length with hlt | hge
    · rw [List.getElem_append_left hlt]
      exact h j hlt
    · obtain rfl : j = l.length := by omega
      rw [List.getElem_concat_length rfl]
      exact hb

/-! ### Prefixes -/

theorem getElem?_mono {l₁ l₂ : List β} (h : l₁ <+: l₂) {j : ℕ} {b : β}
    (hj : l₁[j]? = some b) : l₂[j]? = some b := by
  obtain ⟨l, rfl⟩ := h
  rwa [List.getElem?_append_left (List.getElem?_eq_some_iff.mp hj).1]

/-- A prefix is extended by the next item. -/
theorem prefix_snoc {l₁ l₂ : List β} (h : l₁ <+: l₂) {b : β} (hb : l₂[l₁.length]? = some b) :
    l₁ ++ [b] <+: l₂ := by
  obtain ⟨l, rfl⟩ := h
  rw [List.getElem?_append_right (Nat.le_refl _), Nat.sub_self] at hb
  obtain ⟨l', rfl⟩ : ∃ l', l = b :: l' := by
    cases l with
    | nil => simp at hb
    | cons a l' => exact ⟨l', by simpa using hb⟩
  exact ⟨l', by simp⟩

/-! ### Blocks that depend on what came before -/

/-- The blocks `f l x` of the entries `x` of a list, `l` the entries before `x`;
those before the list are `h`. -/
def blocksFrom (f : List α → α → List β) : List α → List α → List β
  | _, [] => []
  | h, x :: xs => f h x ++ blocksFrom f (h ++ [x]) xs

def blocks (f : List α → α → List β) (xs : List α) : List β := blocksFrom f [] xs

theorem blocksFrom_append (f : List α → α → List β) (h xs ys : List α) :
    blocksFrom f h (xs ++ ys) = blocksFrom f h xs ++ blocksFrom f (h ++ xs) ys := by
  induction xs generalizing h with
  | nil => simp [blocksFrom]
  | cons x xs ih =>
    rw [List.cons_append, blocksFrom, blocksFrom, ih, List.append_assoc, List.append_assoc]
    rfl

theorem blocks_snoc (f : List α → α → List β) (xs : List α) (x : α) :
    blocks f (xs ++ [x]) = blocks f xs ++ f xs x := by
  rw [blocks, blocksFrom_append, List.nil_append]
  exact congrArg _ (List.append_nil _)

/-- Two kinds of entries that every block shows equally often. -/
theorem countP_blocks {f : List α → α → List β} {P Q : β → Bool}
    (h : ∀ l x, (f l x).countP P = (f l x).countP Q) (xs : List α) :
    (blocks f xs).countP P = (blocks f xs).countP Q := by
  have hfrom : ∀ l, (blocksFrom f l xs).countP P = (blocksFrom f l xs).countP Q := by
    induction xs with
    | nil => exact fun _ => rfl
    | cons x xs ih =>
      intro l
      rw [blocksFrom, List.countP_append, List.countP_append, h, ih]
  exact hfrom []

theorem blocks_mono (f : List α → α → List β) (xs ys : List α) :
    blocks f xs <+: blocks f (xs ++ ys) := by
  rw [blocks, blocks, blocksFrom_append]
  exact List.prefix_append _ _

end Sync
