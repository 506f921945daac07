import Mathlib.Data.List.Range

/-! Equal demands, met first fit from equal stocks.

Stocks are numbered, each covers `q` demands, and every demand is met by the first
stock that still covers one. After `a` demands the stocks before `a / q` are used
up, those after it are untouched, and stock `a / q` has met `a % q` of them: stock
`j` has met `used q a j`. -/
namespace CascadePlayground.FirstFit

/-- How many of the first `a` demands stock `j` has met. -/
def used (q a j : Nat) : Nat := min q (a - j * q)

@[simp] theorem used_zero (q j : Nat) : used q 0 j = 0 := by simp [used]

/-- A stock covers another demand as long as the stocks up to it have not met all
that they can. -/
theorem used_lt_iff {q a j : Nat} : used q a j < q ↔ a < (j + 1) * q := by
  rcases Nat.eq_zero_or_pos q with rfl | hq
  · simp [used]
  · have hsucc : (j + 1) * q = j * q + q := Nat.succ_mul j q
    rw [used, hsucc]
    omega

theorem used_lt_iff_div {q a j : Nat} (hq : 0 < q) : used q a j < q ↔ a / q ≤ j := by
  rw [used_lt_iff, ← Nat.div_lt_iff_lt_mul hq, Nat.lt_succ_iff]

theorem used_succ_self {q a : Nat} (hq : 0 < q) : used q (a + 1) (a / q) = used q a (a / q) + 1 := by
  have hdiv := Nat.div_add_mod' a q
  have hmod := Nat.mod_lt a hq
  unfold used
  omega

theorem used_succ_of_ne {q a j : Nat} (hj : j ≠ a / q) : used q (a + 1) j = used q a j := by
  rcases Nat.eq_zero_or_pos q with rfl | hq
  · simp [used]
  · have hdiv := Nat.div_add_mod' a q
    have hmod := Nat.mod_lt a hq
    rcases Nat.lt_or_gt_of_ne hj with hlt | hgt
    · have hle : (j + 1) * q ≤ a / q * q := Nat.mul_le_mul_right q hlt
      have hsucc : (j + 1) * q = j * q + q := Nat.succ_mul j q
      unfold used
      omega
    · have hle : (a / q + 1) * q ≤ j * q := Nat.mul_le_mul_right q hgt
      have hsucc : (a / q + 1) * q = a / q * q + q := Nat.succ_mul (a / q) q
      unfold used
      omega

/-- The stock that meets the next demand. -/
theorem find?_used (q a n : Nat) : (List.range n).find? (fun j => decide (used q a j < q)) =
    if a < n * q then some (a / q) else none := by
  split
  · next h =>
    have hq : 0 < q := Nat.pos_of_mul_pos_left (Nat.zero_lt_of_lt h)
    rw [List.find?_range_eq_some]
    refine ⟨?_, List.mem_range.mpr ((Nat.div_lt_iff_lt_mul hq).mpr h), fun j hj => ?_⟩
    · exact decide_eq_true ((used_lt_iff_div hq).mpr (Nat.le_refl _))
    · rw [decide_eq_false (mt (used_lt_iff_div hq).mp (Nat.not_le.mpr hj))]
      rfl
  · next h =>
    rw [List.find?_range_eq_none]
    intro j hj
    have hle : (j + 1) * q ≤ n * q := Nat.mul_le_mul_right q hj
    rw [decide_eq_false (mt used_lt_iff.mp (by omega))]
    rfl

end CascadePlayground.FirstFit
