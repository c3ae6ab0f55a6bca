import Mathlib.Data.List.Induction

/-!
# Groups

The elements of a sequence are put into groups of up to `n`; an element that is the last
of its packet closes its group as well.  What has not been closed is the rest.
-/

namespace Sync

variable {α : Type*}

/-- The groups that are closed, and the elements after them. -/
structure Groups (α : Type*) where
  closed : List (List α)
  rest : List α

/-- One more element. -/
def Groups.add (last : α → Bool) (n : ℕ) (g : Groups α) (a : α) : Groups α :=
  if last a || g.rest.length + 1 == n then ⟨g.closed ++ [g.rest ++ [a]], []⟩
  else ⟨g.closed, g.rest ++ [a]⟩

/-- The groups of a sequence. -/
def groups (last : α → Bool) (n : ℕ) (l : List α) : Groups α :=
  l.foldl (Groups.add last n) ⟨[], []⟩

variable {last : α → Bool} {n : ℕ} {l : List α} {a : α}

theorem groups_concat (l : List α) (a : α) :
    groups last n (l ++ [a]) = (groups last n l).add last n a := by
  rw [groups, List.foldl_append]
  rfl

theorem groups_concat_close (h : (last a || (groups last n l).rest.length + 1 == n) = true) :
    groups last n (l ++ [a])
      = ⟨(groups last n l).closed ++ [(groups last n l).rest ++ [a]], []⟩ := by
  rw [groups_concat, Groups.add, if_pos h]

theorem groups_concat_keep (h : (last a || (groups last n l).rest.length + 1 == n) = false) :
    groups last n (l ++ [a]) = ⟨(groups last n l).closed, (groups last n l).rest ++ [a]⟩ := by
  rw [groups_concat, Groups.add, if_neg (by rw [h]; exact Bool.false_ne_true)]

/-- Nothing is lost and nothing changes places. -/
theorem groups_flatten (last : α → Bool) (n : ℕ) (l : List α) :
    (groups last n l).closed.flatten ++ (groups last n l).rest = l := by
  induction l using List.reverseRecOn with
  | nil => rfl
  | append_singleton l a ih =>
    cases h : (last a || (groups last n l).rest.length + 1 == n) with
    | false => rw [groups_concat_keep h, ← List.append_assoc, ih]
    | true =>
      rw [groups_concat_close h, List.flatten_append, List.flatten_singleton, List.append_nil,
        ← List.append_assoc, ih]

/-- The rest is short and has no last element of a packet. -/
theorem groups_rest (hn : 0 < n) (l : List α) :
    (groups last n l).rest.length < n ∧ ∀ a ∈ (groups last n l).rest, last a = false := by
  induction l using List.reverseRecOn with
  | nil => exact ⟨hn, fun a ha => nomatch ha⟩
  | append_singleton l a ih =>
    cases h : (last a || (groups last n l).rest.length + 1 == n) with
    | true =>
      rw [groups_concat_close h]
      exact ⟨hn, fun a ha => nomatch ha⟩
    | false =>
      rw [groups_concat_keep h]
      have hlast : last a = false ∧ (groups last n l).rest.length + 1 ≠ n := by simpa using h
      refine ⟨?_, ?_⟩
      · rw [List.length_append, List.length_singleton]
        omega
      · intro x hx
        rcases List.mem_append.mp hx with hx | hx
        · exact ih.2 x hx
        · rw [List.mem_singleton.mp hx]
          exact hlast.1

/-- A closed group ends in the last element of a packet or is full. -/
theorem groups_closed (hn : 0 < n) (l : List α) : ∀ g ∈ (groups last n l).closed,
    ∃ init a, g = init ++ [a] ∧ (∀ x ∈ init, last x = false) ∧ init.length < n ∧
      (last a = true ∨ init.length + 1 = n) := by
  induction l using List.reverseRecOn with
  | nil => exact fun g hg => nomatch hg
  | append_singleton l a ih =>
    cases h : (last a || (groups last n l).rest.length + 1 == n) with
    | false =>
      rw [groups_concat_keep h]
      exact ih
    | true =>
      rw [groups_concat_close h]
      intro g hg
      rcases List.mem_append.mp hg with hg | hg
      · exact ih g hg
      · refine ⟨_, a, List.mem_singleton.mp hg, (groups_rest hn l).2, (groups_rest hn l).1, ?_⟩
        simpa using h

end Sync
