import CascadePlayground.Affinity.Alone

/-! Experiments one after another.

Every call of `setup()` runs to its end before the next one begins. A call that
finds a configuration with another part size stores its own size and puts its own
parts, but leaves the stored number of parts as it is. If that is larger, parts of
the old size are left below it; if it is smaller, the call's own parts are not
all counted. So after the call a block is consistent exactly when its size was
the stored one or its number of parts was (`Block.Updated.consistent_iff`), and a
sequence of calls leaves the store consistent after every call exactly when every
call meets that condition (`experiments_consistent_iff`). -/
namespace CascadePlayground.Affinity
open Program

/-- The block has the size asked for and at least as many parts. -/
def Block.Consistent (b : Block) (size num : Nat) (s : Store) : Prop :=
  ∃ stored, num ≤ stored ∧ b.Holds s size stored

/-- Nothing is asked of the block that a call gets wrong: a new size comes with the
stored number of parts. -/
def Block.Fits (b : Block) (size num : Nat) (s : Store) : Prop :=
  s.value b.sizeKey = some (.int size) ∨ s.value b.numKey = some (.int num)

theorem Block.Updated.consistent_iff {b : Block} {size num old stored : Nat} {s s' : Store}
    (h : b.Updated size num old stored s s') (hold : b.Holds s old stored) (hne : ∀ i, b.parts i ≠ []) :
    b.Consistent size num s' ↔ b.Fits size num s := by
  have hfits : b.Fits size num s ↔ old = size ∨ stored = num := by
    rw [Block.Fits, hold.storedSize, hold.storedNum]
    simp only [Option.some.injEq, Blob.int.injEq, Int.natCast_inj]
  rw [hfits]
  constructor
  · intro hc
    by_cases hsize : old = size
    · exact .inl hsize
    · obtain ⟨n, hn, hholds⟩ := hc
      have hstored := hholds.storedNum
      rw [h.storedNum, if_neg hsize] at hstored
      have hcount : (stored : Int) = n := by simpa using hstored
      right
      by_contra hother
      -- a part beyond those asked for has kept its old size
      obtain ⟨k, hk⟩ := List.exists_mem_of_ne_nil _ (hne num)
      obtain ⟨blob, hv, hbsize⟩ := hholds.parts num (by omega) k hk
      obtain ⟨blob', hv', hbsize'⟩ := hold.parts num (by omega) k hk
      rw [h.parts num k hk, if_neg (by omega), hv'] at hv
      obtain rfl := Option.some.inj hv
      exact hsize (hbsize'.symm.trans hbsize)
  · intro hc
    refine ⟨if old = size then max stored num else stored, ?_, h.storedSize, h.storedNum, ?_⟩
    · split <;> omega
    · intro i hi k hk
      rw [h.parts i k hk]
      by_cases hput : num - Block.toPut old stored size num ≤ i ∧ i < num
      · rw [if_pos hput]
        exact ⟨_, rfl, rfl⟩
      · rw [if_neg hput]
        by_cases hsize : old = size
        · -- the part was there before
          rw [if_pos hsize] at hi
          rw [Block.toPut, if_pos hsize] at hput
          obtain ⟨blob, hv, hbsize⟩ := hold.parts i (by omega) k hk
          exact ⟨blob, hv, hbsize.trans hsize⟩
        · rw [if_neg hsize] at hi
          rw [Block.toPut, if_neg hsize] at hput
          omega

variable (numCategories : ℕ+)

namespace Experiment

/-- The store after a call. -/
def run (q : Experiment) (s : Store) : Except Failure Store :=
  ((q.call numCategories).run act s).map Prod.snd

/-- What the call should leave: its sizes, at least its numbers of parts, and every
part below the stored numbers, with the stored size. -/
def Consistent (q : Experiment) (s : Store) : Prop :=
  entryBlock.Consistent q.entryPartSize q.numEntryParts s ∧
    (dataBlock numCategories).Consistent q.dataPartSize q.numDataParts s

/-- The call finds no configuration, or one that it updates rightly. -/
def Fits (q : Experiment) (s : Store) : Prop :=
  s.listKeys objConfigPath = [] ∨
    (entryBlock.Fits q.entryPartSize q.numEntryParts s ∧
      (dataBlock numCategories).Fits q.dataPartSize q.numDataParts s)

end Experiment

/-- The store after the calls, from an empty one. -/
def experiments (qs : List Experiment) : Except Failure Store :=
  qs.foldlM (fun s q => q.run numCategories s) []

/-- A store that calls have left consistent so far. -/
def Uniform (s : Store) : Prop :=
  s = [] ∨ ∃ es en ds dn, entryBlock.Holds s es en ∧ (dataBlock numCategories).Holds s ds dn

variable {numCategories} {s : Store} {q : Experiment}

theorem Experiment.Consistent.uniform (h : q.Consistent numCategories s) : Uniform numCategories s := by
  obtain ⟨⟨en, _, he⟩, dn, _, hd⟩ := h
  exact .inr ⟨_, en, _, dn, he, hd⟩

theorem dataBlock_parts_ne_nil (i : Nat) : (dataBlock numCategories).parts i ≠ [] := by
  apply List.ne_nil_of_mem (a := Key.categoryData 0 i)
  exact List.mem_map.mpr ⟨0, List.mem_range.mpr numCategories.2, rfl⟩

/-- One call, from a uniform store. -/
theorem Uniform.run (h : Uniform numCategories s) (q : Experiment) :
    ∃ s', q.run numCategories s = .ok s' ∧ (q.Consistent numCategories s' ↔ q.Fits numCategories s) := by
  rcases h with rfl | ⟨es, en, ds, dn, he, hd⟩
  · obtain ⟨s', hrun, he, hd⟩ := call_fresh (s := []) numCategories rfl q
    refine ⟨s', by rw [Experiment.run, hrun]; rfl, ?_⟩
    exact ⟨fun _ => .inl rfl, fun _ => ⟨⟨_, Nat.le_refl _, he⟩, _, Nat.le_refl _, hd⟩⟩
  · obtain ⟨s', hrun, he', hd'⟩ := call_updated numCategories he hd q
    have hkeys : s.listKeys objConfigPath ≠ [] := listKeys_ne_nil he.storedSize
    refine ⟨s', by rw [Experiment.run, hrun]; rfl, ?_⟩
    rw [Experiment.Consistent, Experiment.Fits, or_iff_right hkeys,
      he'.consistent_iff he (fun i => List.cons_ne_nil _ _), hd'.consistent_iff hd dataBlock_parts_ne_nil]

theorem experiments_concat (numCategories : ℕ+) (qs : List Experiment) (q : Experiment) :
    experiments numCategories (qs ++ [q]) =
      experiments numCategories qs >>= fun s => q.run numCategories s := by
  rw [experiments, List.foldlM_append]
  apply bind_congr
  intro s
  rw [List.foldlM_cons]
  exact bind_pure _

theorem run_concat {before : List Experiment} (hs : experiments numCategories before = .ok s) (q : Experiment) :
    experiments numCategories (before ++ [q]) = q.run numCategories s := by
  rw [experiments_concat, hs]
  rfl

/-- **Every call of a sequence leaves the store consistent exactly when each meets
its condition**: it finds no configuration, or for the entry parts and for the data
parts either its size is the stored one or its number of parts is. -/
theorem experiments_consistent_iff (numCategories : ℕ+) (qs : List Experiment) :
    (∀ before q after, qs = before ++ q :: after →
        ∃ s, experiments numCategories (before ++ [q]) = .ok s ∧ q.Consistent numCategories s) ↔
      ∀ before q after, qs = before ++ q :: after →
        ∃ s, experiments numCategories before = .ok s ∧ q.Fits numCategories s := by
  constructor
  · intro h before q after hqs
    -- what the earlier calls have left is uniform
    have huniform : ∃ s, experiments numCategories before = .ok s ∧ Uniform numCategories s := by
      rcases List.eq_nil_or_concat before with rfl | ⟨earlier, p, rfl⟩
      · exact ⟨[], rfl, .inl rfl⟩
      · rw [List.concat_eq_append] at hqs ⊢
        obtain ⟨s, hs, hc⟩ := h earlier p (q :: after) (by rw [hqs, List.append_assoc]; rfl)
        exact ⟨s, hs, hc.uniform⟩
    obtain ⟨s, hs, hu⟩ := huniform
    obtain ⟨s', hrun, hiff⟩ := hu.run q
    obtain ⟨s'', hs'', hc⟩ := h before q after hqs
    rw [run_concat hs, hrun] at hs''
    obtain rfl := Except.ok.inj hs''
    exact ⟨s, hs, hiff.mp hc⟩
  · intro h
    have huniform : ∀ before after, qs = before ++ after →
        ∃ s, experiments numCategories before = .ok s ∧ Uniform numCategories s := by
      intro before
      induction before using List.reverseRecOn with
      | nil => exact fun _ _ => ⟨[], rfl, .inl rfl⟩
      | append_singleton before q ih =>
        intro after hqs
        rw [List.append_assoc, List.singleton_append] at hqs
        obtain ⟨s, hs, hu⟩ := ih _ hqs
        obtain ⟨t, ht, hfits⟩ := h before q after hqs
        obtain rfl := Except.ok.inj (hs.symm.trans ht)
        obtain ⟨s', hrun, hiff⟩ := hu.run q
        exact ⟨s', by rw [run_concat hs, hrun], (hiff.mpr hfits).uniform⟩
    intro before q after hqs
    obtain ⟨s, hs, hu⟩ := huniform before _ hqs
    obtain ⟨t, ht, hfits⟩ := h before q after hqs
    obtain rfl := Except.ok.inj (hs.symm.trans ht)
    obtain ⟨s', hrun, hiff⟩ := hu.run q
    exact ⟨s', by rw [run_concat hs, hrun], hiff.mpr hfits⟩

/-! ### Calls that leave the store inconsistent

The second experiment has larger entry parts, and fewer of them. -/

def smallParts : Experiment := ⟨1, 2, 1, 1, 7, []⟩

def largeParts : Experiment := ⟨3, 1, 1, 1, 7, []⟩

/-- What the calls leave under a key. -/
def left (qs : List Experiment) (k : Key) : Option Blob :=
  match experiments defaultCategories qs with
  | .ok s => s.value k
  | .error _ => none

theorem largeParts_not_consistent :
    ¬ ∀ before q after, [smallParts, largeParts] = before ++ q :: after →
      ∃ s, experiments defaultCategories (before ++ [q]) = .ok s ∧ q.Consistent defaultCategories s := by
  intro h
  obtain ⟨s, hs, ⟨n, _, hholds⟩, _⟩ := h [smallParts] largeParts [] rfl
  have hleft : ∀ k, left [smallParts, largeParts] k = s.value k := by
    intro k
    unfold left
    rw [List.cons_append, List.nil_append] at hs
    rw [hs]
  -- two parts are counted, and the second is a small one
  have hnum : left [smallParts, largeParts] .numEntryParts = some (.int 2) := by decide
  have hpart : left [smallParts, largeParts] (.entryData 1) = some (.random 1) := by decide
  rw [hleft] at hnum hpart
  have hstored : s.value .numEntryParts = some (.int n) := hholds.storedNum
  rw [hnum] at hstored
  have hn : (2 : Int) = n := Blob.int.inj (Option.some.inj hstored)
  obtain ⟨blob, hv, hsize⟩ := hholds.parts 1 (by omega) (.entryData 1) (List.mem_cons_self ..)
  have hv : s.value (.entryData 1) = some blob := hv
  rw [hpart] at hv
  obtain rfl := Option.some.inj hv
  cases hsize

end CascadePlayground.Affinity
