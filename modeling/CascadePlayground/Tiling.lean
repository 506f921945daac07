import Mathlib.Order.CompletePartialOrder
import Mathlib.Order.Interval.Set.Disjoint

/-! Ranges laid end to end.

A range is a pair of bounds, the upper one outside of it. Where each range begins
at the end of the one before it, no two of them meet (`Tiles.pairwise`), and
together they are the range from the first bound to the last (`Tiles.mem_iff`). -/
namespace CascadePlayground.Tiling

variable {α : Type*} [LinearOrder α]

/-- The ranges lead from `a` to `b`. -/
inductive Tiles : List (α × α) → α → α → Prop where
  | nil (a : α) : Tiles [] a a
  | concat {rs : List (α × α)} {a b c : α} : Tiles rs a b → b ≤ c → Tiles (rs ++ [(b, c)]) a c

variable {rs : List (α × α)} {a b : α}

theorem Tiles.le (h : Tiles rs a b) : a ≤ b := by
  induction h with
  | nil => exact le_rfl
  | concat _ hbc ih => exact ih.trans hbc

theorem Tiles.mem_iff (h : Tiles rs a b) {x : α} :
    (∃ r ∈ rs, x ∈ Set.Ico r.1 r.2) ↔ x ∈ Set.Ico a b := by
  induction h with
  | nil => simp
  | @concat rs a b c h hbc ih =>
    rw [← Set.Ico_union_Ico_eq_Ico h.le hbc, Set.mem_union, ← ih]
    simp only [List.mem_append, List.mem_singleton, or_and_right, exists_or, exists_eq_left]

theorem Tiles.subset (h : Tiles rs a b) {r : α × α} (hr : r ∈ rs) : Set.Ico r.1 r.2 ⊆ Set.Ico a b :=
  fun _ hx => h.mem_iff.mp ⟨r, hr, hx⟩

theorem Tiles.pairwise (h : Tiles rs a b) :
    rs.Pairwise fun r r' => Disjoint (Set.Ico r.1 r.2) (Set.Ico r'.1 r'.2) := by
  induction h with
  | nil => exact .nil
  | @concat rs a b c h hbc ih =>
    refine List.pairwise_append.mpr ⟨ih, List.pairwise_singleton .., fun r hr r' hr' => ?_⟩
    rw [List.mem_singleton.mp hr']
    exact Set.Ico_disjoint_Ico_same.mono_left (h.subset hr)

end CascadePlayground.Tiling
