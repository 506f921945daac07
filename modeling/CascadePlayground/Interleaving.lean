import Mathlib.Data.List.Chain
import Mathlib.Data.List.GetD
import Mathlib.Data.List.Perm.Basic
import Mathlib.Logic.Function.Basic

/-! Sequences put together in any order that keeps the order of each.

`Interleaves` says so of the items alone. A trace has with each item the number of the
sequence it comes from (`Mixes`), so that it can be said who goes on after an item. When
the items are pieces of larger blocks and whoever has begun a block goes on to its end, the
blocks are put together in some order as well (`Mixes.blocks`). -/
namespace CascadePlayground.Interleaving

variable {α : Type*}

/-- Each item of the result is the next one of some sequence. -/
inductive Interleaves : List (List α) → List α → Prop where
  | done {sequences : List (List α)} : (∀ s ∈ sequences, s = []) → Interleaves sequences []
  | take {before after : List (List α)} {x : α} {rest items : List α} :
      Interleaves (before ++ rest :: after) items →
      Interleaves (before ++ (x :: rest) :: after) (x :: items)

theorem Interleaves.perm {sequences : List (List α)} {items : List α} (h : Interleaves sequences items) :
    items.Perm sequences.flatten := by
  induction h with
  | done hnil =>
    rw [List.flatten_eq_nil_iff.mpr hnil]
  | @take before after x rest items _ ih =>
    have hmove : (before ++ (x :: rest) :: after).flatten.Perm
        (x :: (before ++ rest :: after).flatten) := by
      simp only [List.flatten_append, List.flatten_cons, List.cons_append]
      exact List.perm_middle
    exact (ih.cons x).trans hmove.symm

/-- Many sequences of one kind, and another one. -/
theorem Interleaves.perm_others {ι : Type*} {l : List ι} {f : ι → List α} {others items : List α}
    (h : Interleaves (l.map f ++ [others]) items) : items.Perm (l.flatMap f ++ others) := by
  have hflat : (l.map f ++ [others]).flatten = l.flatMap f ++ others := by
    rw [List.flatten_append, List.flatten_singleton, ← List.flatMap_def]
  rw [← hflat]
  exact h.perm

/-! ### Two sequences -/

theorem Interleaves.nil : Interleaves [([] : List α), []] [] := by
  apply Interleaves.done
  simp

theorem Interleaves.left {x : α} {a b items : List α} (h : Interleaves [a, b] items) :
    Interleaves [x :: a, b] (x :: items) := @Interleaves.take α [] [b] x a items h

theorem Interleaves.right {x : α} {a b items : List α} (h : Interleaves [a, b] items) :
    Interleaves [a, x :: b] (x :: items) := @Interleaves.take α [a] [] x b items h

/-! ### Traces -/

/-- What has come from sequence `i`. -/
def own (i : Nat) (trace : List (Nat × α)) : List α := (trace.filter fun x => x.1 = i).map Prod.snd

/-- The trace has of each sequence all items in their order, and no others. -/
def Mixes (sequences : List (List α)) (trace : List (Nat × α)) : Prop :=
  ∀ i, own i trace = sequences.getD i []

@[simp] theorem own_nil (i : Nat) : own i ([] : List (Nat × α)) = [] := rfl

theorem own_append (i : Nat) (a b : List (Nat × α)) : own i (a ++ b) = own i a ++ own i b := by
  rw [own, List.filter_append, List.map_append]
  rfl

theorem own_cons (i : Nat) (x : Nat × α) (trace : List (Nat × α)) :
    own i (x :: trace) = (if x.1 = i then [x.2] else []) ++ own i trace := by
  by_cases h : x.1 = i <;> simp [own, h]

theorem own_tagged (i j : Nat) (items : List α) :
    own i (items.map (Prod.mk j)) = if j = i then items else [] := by
  induction items with
  | nil => split <;> rfl
  | cons x items ih =>
    rw [List.map_cons, own_cons, ih]
    by_cases h : j = i <;> simp [h]

/-- The items by the numbers of their sequences. -/
theorem perm_flatMap_own {numbers : List Nat} (hnodup : numbers.Nodup) {trace : List (Nat × α)}
    (h : ∀ x ∈ trace, x.1 ∈ numbers) :
    (trace.map Prod.snd).Perm (numbers.flatMap fun i => own i trace) := by
  induction numbers generalizing trace with
  | nil =>
    obtain rfl : trace = [] := List.eq_nil_iff_forall_not_mem.mpr fun x hx => List.not_mem_nil (h x hx)
    exact List.Perm.nil
  | cons i numbers ih =>
    obtain ⟨hi, hnodup⟩ := List.nodup_cons.mp hnodup
    have hsplit := (List.filter_append_perm (fun x : Nat × α => decide (x.1 = i)) trace).map Prod.snd
    have hothers : ∀ x ∈ trace.filter fun x => !decide (x.1 = i), x.1 ∈ numbers := by
      intro x hx
      obtain ⟨hmem, hne⟩ := List.mem_filter.mp hx
      refine (List.mem_cons.mp (h x hmem)).resolve_left fun he => ?_
      simp [he] at hne
    have hown : ∀ j ∈ numbers, own j (trace.filter fun x => !decide (x.1 = i)) = own j trace := by
      intro j hj
      rw [own, List.filter_filter, own]
      congr 1
      refine List.filter_congr fun x _ => ?_
      by_cases hx : x.1 = j
      · have hne : j ≠ i := fun he => hi (he ▸ hj)
        simp [hx, hne]
      · simp [hx]
    have hrest := ih hnodup hothers
    rw [List.flatMap_congr hown] at hrest
    rw [List.map_append] at hsplit
    rw [List.flatMap_cons]
    exact hsplit.symm.trans (hrest.append_left _)

theorem Mixes.perm {sequences : List (List α)} {trace : List (Nat × α)} (h : Mixes sequences trace) :
    (trace.map Prod.snd).Perm sequences.flatten := by
  have hmem : ∀ x ∈ trace, x.1 ∈ List.range sequences.length := by
    intro x hx
    rw [List.mem_range]
    by_contra hle
    have hown : x.2 ∈ own x.1 trace := List.mem_map_of_mem (List.mem_filter.mpr ⟨hx, decide_eq_true rfl⟩)
    rw [h x.1, List.getD_eq_default _ _ (Nat.le_of_not_lt hle)] at hown
    cases hown
  have hsequences : (List.range sequences.length).map (fun i => sequences.getD i []) = sequences := by
    refine List.ext_getElem (by simp) fun i h₁ h₂ => ?_
    rw [List.getElem_map, List.getElem_range, List.getD_eq_getElem _ _ h₂]
  have hperm := perm_flatMap_own List.nodup_range hmem
  rw [List.flatMap_congr fun i _ => h i, List.flatMap_def, hsequences] at hperm
  exact hperm

/-! ### Blocks -/

section Blocks
variable {ends : α → Bool} {trace : List (Nat × α)}

/-- The last piece ends it, and no other does. -/
def Block (ends : α → Bool) (b : List α) : Prop :=
  ∃ front last, b = front ++ [last] ∧ (∀ x ∈ front, ends x = false) ∧ ends last = true

/-- After a piece that does not end a block, the next one is of the same sequence. -/
def Unbroken (ends : α → Bool) (trace : List (Nat × α)) : Prop :=
  trace.IsChain fun x y => ends x.2 = true ∨ x.1 = y.1

/-- Whoever begins a block goes on to its end. -/
theorem Unbroken.exists_rest {i : Nat} {x : α} (h : Unbroken ends ((i, x) :: trace)) {front rest : List α}
    {last : α} (hfront : ∀ y ∈ front, ends y = false)
    (hown : own i ((i, x) :: trace) = front ++ last :: rest) :
    ∃ trace', (i, x) :: trace = (front ++ [last]).map (Prod.mk i) ++ trace' := by
  induction front generalizing x trace with
  | nil =>
    rw [own_cons, if_pos rfl] at hown
    obtain ⟨rfl, -⟩ := List.cons.inj hown
    exact ⟨trace, rfl⟩
  | cons y front ih =>
    rw [own_cons, if_pos rfl, List.singleton_append, List.cons_append] at hown
    obtain ⟨rfl, htail⟩ := List.cons.inj hown
    obtain ⟨hx, hfront⟩ := List.forall_mem_cons.mp hfront
    cases trace with
    | nil => exact absurd htail.symm (by simp)
    | cons z trace =>
      obtain ⟨j, z⟩ := z
      obtain ⟨hnext, hrest⟩ := List.isChain_cons_cons.mp h
      obtain rfl : i = j := hnext.resolve_left (by simp [hx])
      obtain ⟨trace', htrace⟩ := ih hrest hfront htail
      exact ⟨trace', congrArg _ htrace⟩

section Rest
variable {blocks : Nat → List (List α)} {i : Nat} {b : List α} {bs : List (List α)} (hi : blocks i = b :: bs)
include hi

/-- After the first block of a sequence the trace has the other blocks. -/
theorem own_rest (hown : ∀ j, own j (b.map (Prod.mk i) ++ trace) = (blocks j).flatten) (j : Nat) :
    own j trace = (Function.update blocks i bs j).flatten := by
  have hj := hown j
  rw [own_append, own_tagged] at hj
  by_cases hij : i = j
  · subst hij
    rw [if_pos rfl, hi, List.flatten_cons] at hj
    rw [Function.update_self]
    exact List.append_cancel_left hj
  · rw [if_neg hij, List.nil_append] at hj
    rw [Function.update_of_ne (Ne.symm hij), hj]

theorem mem_of_mem_rest {j : Nat} {c : List α} (hc : c ∈ Function.update blocks i bs j) : c ∈ blocks j := by
  by_cases hij : j = i
  · subst hij
    rw [Function.update_self] at hc
    exact hi ▸ List.mem_cons_of_mem _ hc
  · rwa [Function.update_of_ne hij] at hc

theorem own_cons_rest {order : List (Nat × List α)}
    (horder : ∀ j, own j order = Function.update blocks i bs j) (j : Nat) :
    own j ((i, b) :: order) = blocks j := by
  rw [own_cons, horder]
  by_cases hij : i = j
  · subst hij
    rw [if_pos rfl, Function.update_self, hi]
    rfl
  · rw [if_neg hij, Function.update_of_ne (Ne.symm hij)]
    rfl

end Rest

/-- **Unbroken blocks are put together in some order**, which gives the same items. -/
theorem Unbroken.blocks (h : Unbroken ends trace) {blocks : Nat → List (List α)}
    (hblocks : ∀ i, ∀ b ∈ blocks i, Block ends b) (hown : ∀ i, own i trace = (blocks i).flatten) :
    ∃ order : List (Nat × List α), (∀ i, own i order = blocks i) ∧
      trace.map Prod.snd = order.flatMap Prod.snd := by
  induction hn : trace.length using Nat.strong_induction_on generalizing trace blocks with
  | _ n ih =>
    cases trace with
    | nil =>
      refine ⟨[], fun i => ?_, rfl⟩
      cases hi : blocks i with
      | nil => rfl
      | cons b bs =>
        obtain ⟨front, last, rfl, -⟩ := hblocks i b (hi ▸ List.mem_cons_self ..)
        have hnil := hown i
        rw [hi] at hnil
        simp at hnil
    | cons x trace =>
      obtain ⟨i, x⟩ := x
      have howni := hown i
      rw [own_cons, if_pos rfl] at howni
      cases hi : blocks i with
      | nil =>
        rw [hi] at howni
        cases howni
      | cons b bs =>
        -- the trace begins with the first block of the sequence that it begins with
        obtain ⟨front, last, rfl, hfront, _⟩ := hblocks i b (hi ▸ List.mem_cons_self ..)
        have hfirst := hown i
        rw [hi, List.flatten_cons, List.append_assoc, List.singleton_append] at hfirst
        obtain ⟨rest, htrace⟩ := h.exists_rest hfront hfirst
        rw [htrace] at h hown hn ⊢
        have hlength : rest.length < n := by
          rw [← hn, List.length_append, List.length_map, List.length_append, List.length_singleton]
          omega
        obtain ⟨order, horder, hitems⟩ := ih rest.length hlength (List.IsChain.right_of_append h)
          (fun j c hc => hblocks j c (mem_of_mem_rest hi hc)) (own_rest hi hown) rfl
        refine ⟨(i, front ++ [last]) :: order, own_cons_rest hi horder, ?_⟩
        rw [List.map_append, List.map_map, hitems, List.flatMap_cons]
        exact congrArg (· ++ _) (List.map_id _)

/-- The same for sequences of blocks. -/
theorem Mixes.blocks {sequences : List (List (List α))} (h : Mixes (sequences.map List.flatten) trace)
    (hunbroken : Unbroken ends trace) (hblocks : ∀ s ∈ sequences, ∀ b ∈ s, Block ends b) :
    ∃ order, Mixes sequences order ∧ trace.map Prod.snd = order.flatMap Prod.snd := by
  refine hunbroken.blocks (fun i b hb => ?_) fun i => ?_
  · by_cases hi : i < sequences.length
    · rw [List.getD_eq_getElem _ _ hi] at hb
      exact hblocks _ (List.getElem_mem hi) b hb
    · rw [List.getD_eq_default _ _ (Nat.le_of_not_lt hi)] at hb
      cases hb
  · rw [h i]
    exact List.getD_map _ [] List.flatten

end Blocks

end CascadePlayground.Interleaving
