import Mathlib.Algebra.BigOperators.Fin
import Mathlib.Algebra.Order.Rearrangement
import Mathlib.Data.Fin.Tuple.Sort
import Mathlib.Data.Prod.Lex
import Mathlib.Tactic.Linarith
import Mathlib.Tactic.Ring

/-! Two columns of a table, each sorted by itself.

Where the columns of a table are sorted apart, what stands beside each other is no
more what stood in one row. Their differences are those of the rows, in some order,
exactly when no two rows are one way round in the first column and the other way
round in the second (`differences_perm_iff`). The sum of the products tells that
pairing from all others: this is the equality case of the rearrangement inequality. -/
namespace CascadePlayground.Pairing

variable {K ι : Type*} {n : Nat}

theorem ofFn_get (rows : List ι) (f : ι → K) : List.ofFn (fun i => f (rows.get i)) = rows.map f := by
  have hmap : (List.ofFn rows.get).map f = List.ofFn (f ∘ rows.get) := List.map_ofFn
  rw [List.ofFn_get] at hmap
  exact hmap.symm

/-! ### Sorting by both columns -/

section Order
variable [LinearOrder K] {f g : Fin n → K}

/-- A list has one way to be sorted. -/
theorem eq_ofFn {l : List K} {σ : Equiv.Perm (Fin n)} (hl : l.Pairwise (· ≤ ·))
    (hf : l.Perm (List.ofFn f)) (hσ : Monotone (f ∘ σ)) : l = List.ofFn (f ∘ σ) := by
  have hperm : l.Perm (List.ofFn (f ∘ σ)) := hf.trans (σ.ofFn_comp_perm f).symm
  exact hperm.eq_of_pairwise' hl hσ.sortedLE_ofFn.pairwise

theorem exists_monotone (h : Monovary f g) :
    ∃ σ : Equiv.Perm (Fin n), Monotone (f ∘ σ) ∧ Monotone (g ∘ σ) := by
  let row : Fin n → K ×ₗ K := fun i => toLex (f i, g i)
  have hsort : Monotone (row ∘ Tuple.sort row) := Tuple.monotone_sort row
  refine ⟨Tuple.sort row, fun i j hij => ?_, fun i j hij => ?_⟩
  · exact Prod.Lex.monotone_fst _ _ (hsort hij)
  · rcases Prod.Lex.le_iff.mp (hsort hij) with hlt | ⟨_, hle⟩
    · exact h.symm hlt
    · exact hle

end Order

/-! ### The differences -/

section Ring
variable [CommRing K] (f g : Fin n → K)

theorem zipWith_ofFn :
    List.zipWith (· - ·) (List.ofFn g) (List.ofFn f) = List.ofFn fun i => g i - f i := by
  apply List.ext_getElem
  · simp
  · simp

theorem sum_sq_sub :
    ((List.ofFn fun i => g i - f i).map fun x => x ^ 2).sum =
      ∑ i, g i ^ 2 - 2 * ∑ i, f i * g i + ∑ i, f i ^ 2 := by
  rw [List.map_ofFn, List.sum_ofFn, Finset.mul_sum, ← Finset.sum_sub_distrib, ← Finset.sum_add_distrib]
  refine Finset.sum_congr rfl fun i _ => ?_
  show (g i - f i) ^ 2 = _
  ring

end Ring

section OrderedRing
variable [CommRing K] [LinearOrder K] [IsStrictOrderedRing K] {f g : Fin n → K}

/-- The products of the sorted columns have the sum of the rows' products only where
the columns go together. -/
theorem sum_sorted_mul_eq_iff {σ τ : Equiv.Perm (Fin n)} (hσ : Monotone (f ∘ σ)) (hτ : Monotone (g ∘ τ)) :
    ∑ i, f (σ i) * g (τ i) = ∑ i, f i * g i ↔ Monovary f g := by
  let π : Equiv.Perm (Fin n) := σ.symm.trans τ
  have hπ : Monovary f (g ∘ π) := by
    have hmono := (hσ.monovary hτ).comp_right σ.symm
    have hfσ : (f ∘ σ) ∘ σ.symm = f := by
      funext i
      simp
    rw [hfσ] at hmono
    exact hmono
  have hsorted : ∑ i, f (σ i) * g (τ i) = ∑ i, f i * (g ∘ π) i := by
    rw [← Equiv.sum_comp σ fun i => f i * (g ∘ π) i]
    refine Finset.sum_congr rfl fun i _ => ?_
    simp [π]
  have hback : (g ∘ π) ∘ π.symm = g := by
    funext i
    simp
  have hrows : ∑ i, f i * g i = ∑ i, f i * (g ∘ π) (π.symm i) := by
    refine Finset.sum_congr rfl fun i _ => ?_
    simp
  rw [hsorted, hrows, eq_comm, hπ.sum_mul_comp_perm_eq_sum_mul_iff, hback]

theorem differences_ofFn_iff {s e : List K} (hs : s.Pairwise (· ≤ ·)) (hf : s.Perm (List.ofFn f))
    (he : e.Pairwise (· ≤ ·)) (hg : e.Perm (List.ofFn g)) :
    (List.zipWith (· - ·) e s).Perm (List.ofFn fun i => g i - f i) ↔ Monovary f g := by
  constructor
  · intro h
    have hσ : Monotone (f ∘ Tuple.sort f) := Tuple.monotone_sort f
    have hτ : Monotone (g ∘ Tuple.sort g) := Tuple.monotone_sort g
    rw [eq_ofFn hs hf hσ, eq_ofFn he hg hτ, zipWith_ofFn] at h
    -- the squares of the differences tell the sum of the products
    have hsum := (h.map fun x => x ^ 2).sum_eq
    rw [sum_sq_sub, sum_sq_sub f g] at hsum
    have hf2 : ∑ i, (f ∘ Tuple.sort f) i ^ 2 = ∑ i, f i ^ 2 := Equiv.sum_comp _ fun i => f i ^ 2
    have hg2 : ∑ i, (g ∘ Tuple.sort g) i ^ 2 = ∑ i, g i ^ 2 := Equiv.sum_comp _ fun i => g i ^ 2
    rw [hf2, hg2] at hsum
    apply (sum_sorted_mul_eq_iff hσ hτ).mp
    show ∑ i, (f ∘ Tuple.sort f) i * (g ∘ Tuple.sort g) i = _
    linarith
  · intro h
    obtain ⟨σ, hσ, hτ⟩ := exists_monotone h
    rw [eq_ofFn hs hf hσ, eq_ofFn he hg hτ, zipWith_ofFn]
    exact σ.ofFn_comp_perm fun i => g i - f i

/-- **Columns sorted apart have the differences of the rows** exactly when they go together. -/
theorem differences_perm_iff {rows : List ι} {f g : ι → K} {s e : List K}
    (hs : s.Pairwise (· ≤ ·)) (hf : s.Perm (rows.map f)) (he : e.Pairwise (· ≤ ·)) (hg : e.Perm (rows.map g)) :
    (List.zipWith (· - ·) e s).Perm (rows.map fun row => g row - f row) ↔
      ∀ a ∈ rows, ∀ b ∈ rows, f a < f b → g a ≤ g b := by
  rw [← ofFn_get] at hf hg
  rw [← ofFn_get, differences_ofFn_iff hs hf he hg, monovary_comm]
  constructor
  · intro h a ha b hb hlt
    obtain ⟨i, rfl⟩ := List.get_of_mem ha
    obtain ⟨j, rfl⟩ := List.get_of_mem hb
    exact h hlt
  · intro h i j hlt
    exact h _ (List.get_mem ..) _ (List.get_mem ..) hlt

end OrderedRing

end CascadePlayground.Pairing
