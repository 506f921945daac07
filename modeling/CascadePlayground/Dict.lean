import Mathlib.Data.List.Nodup

/-! Dictionaries that keep the order of insertion.

A key that is there already keeps its place when its value is replaced, and a new
key comes last. -/
namespace CascadePlayground

structure Dict (κ α : Type) where
  entries : List (κ × α)
  nodup : (entries.map Prod.fst).Nodup

namespace Dict
variable {κ α : Type} [DecidableEq κ]

def empty : Dict κ α := ⟨[], List.nodup_nil⟩

def get? (d : Dict κ α) (k : κ) : Option α := d.entries.lookup k

/-- The entries with another value under `k`, given the old one if there is one. -/
def updateEntries (k : κ) (f : Option α → α) : List (κ × α) → List (κ × α)
  | [] => [(k, f none)]
  | (k', v) :: l => if k' = k then (k, f (some v)) :: l else (k', v) :: updateEntries k f l

theorem mem_keys_updateEntries {k k' : κ} {f : Option α → α} {l : List (κ × α)} :
    k' ∈ (updateEntries k f l).map Prod.fst ↔ k' = k ∨ k' ∈ l.map Prod.fst := by
  induction l with
  | nil => simp [updateEntries]
  | cons x l ih =>
    unfold updateEntries
    by_cases h : x.1 = k
    · simp [h]
    · simp only [if_neg h, List.map_cons, List.mem_cons, ih]
      exact or_left_comm

theorem nodup_updateEntries {k : κ} {f : Option α → α} {l : List (κ × α)} (h : (l.map Prod.fst).Nodup) :
    ((updateEntries k f l).map Prod.fst).Nodup := by
  induction l with
  | nil => exact List.nodup_singleton k
  | cons x l ih =>
    have h := List.nodup_cons.mp h
    unfold updateEntries
    by_cases hk : x.1 = k
    · rw [if_pos hk]
      exact List.nodup_cons.mpr (hk ▸ h)
    · rw [if_neg hk]
      refine List.nodup_cons.mpr ⟨fun hmem => ?_, ih h.2⟩
      rcases mem_keys_updateEntries.mp hmem with hx | hx
      · exact hk hx
      · exact h.1 hx

theorem lookup_updateEntries (k k' : κ) (f : Option α → α) (l : List (κ × α)) :
    (updateEntries k f l).lookup k' = if k' = k then some (f (l.lookup k)) else l.lookup k' := by
  induction l with
  | nil =>
    rw [updateEntries, List.lookup_cons]
    by_cases h : k' = k
    · simp [h]
    · simp [h, beq_false_of_ne h]
  | cons x l ih =>
    unfold updateEntries
    by_cases hx : x.1 = k
    · rw [if_pos hx, List.lookup_cons, List.lookup_cons, List.lookup_cons, hx]
      by_cases h : k' = k
      · simp [h]
      · simp [h, beq_false_of_ne h]
    · rw [if_neg hx, List.lookup_cons, ih, List.lookup_cons, List.lookup_cons]
      by_cases h : k' = k
      · have hne : (k' == x.1) = false := by
          rw [h]
          exact beq_false_of_ne (Ne.symm hx)
        subst h
        simp [hne]
      · simp [h]

/-- `d[k] = f(d[k])`, where the key may be new. -/
def update (d : Dict κ α) (k : κ) (f : Option α → α) : Dict κ α :=
  ⟨updateEntries k f d.entries, nodup_updateEntries d.nodup⟩

theorem get?_update (d : Dict κ α) (k k' : κ) (f : Option α → α) :
    (d.update k f).get? k' = if k' = k then some (f (d.get? k)) else d.get? k' :=
  lookup_updateEntries k k' f d.entries

theorem mem_keys_iff (d : Dict κ α) (k : κ) : k ∈ d.entries.map Prod.fst ↔ d.get? k ≠ none := by
  unfold get?
  induction d.entries with
  | nil => simp
  | cons x l ih =>
    rw [List.map_cons, List.mem_cons, List.lookup_cons]
    by_cases h : k = x.1
    · simp [h]
    · simp [h, beq_false_of_ne h, ih]

end Dict
end CascadePlayground
