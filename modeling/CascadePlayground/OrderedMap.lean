import Std.Data.ExtTreeMap

/-! Ordered maps, written out and read back.

A map listed in the order of its keys is rebuilt by inserting its entries
(`foldl_insert_toList`). A map of lists can also be rebuilt from the items of its
lists, one at a time, each under its key (`foldl_push_toList`), unless one of its
lists is empty: that entry leaves no trace. And what has been pushed, in any order,
is what the map then lists, in another (`items_pushAll`). -/
namespace CascadePlayground.OrderedMap
open Std (ExtTreeMap TransCmp LawfulEqCmp)

variable {α β : Type} {cmp : α → α → Ordering} [TransCmp cmp] [LawfulEqCmp cmp]

/-- `m[k] = v` for each entry in turn. -/
def insertAll (m : ExtTreeMap α β cmp) (l : List (α × β)) : ExtTreeMap α β cmp :=
  l.foldl (fun m x => m.insert x.1 x.2) m

theorem foldl_insert_toList (t : ExtTreeMap α β cmp) : insertAll ∅ t.toList = t := by
  rw [insertAll, ← ExtTreeMap.ofList_eq_foldl]
  apply ExtTreeMap.ext_getElem?
  intro k
  cases h : t[k]? with
  | some v =>
    have hmem : (k, v) ∈ t.toList := ExtTreeMap.mem_toList_iff_getElem?_eq_some.mpr h
    exact ExtTreeMap.getElem?_ofList_of_mem Std.ReflCmp.compare_self ExtTreeMap.distinct_keys_toList hmem
  | none =>
    let _ : BEq α := ⟨fun a b => cmp a b == .eq⟩
    have _ : Std.LawfulBEqCmp cmp := ⟨beq_iff_eq.symm⟩
    apply ExtTreeMap.getElem?_ofList_of_contains_eq_false
    rw [ExtTreeMap.map_fst_toList_eq_keys, ExtTreeMap.contains_keys, ExtTreeMap.contains_eq_isSome_getElem?, h]
    rfl

/-! ### Entries -/

theorem nodup_toList (m : ExtTreeMap α β cmp) : m.toList.Nodup := by
  refine ExtTreeMap.distinct_keys_toList.imp fun hne heq => hne ?_
  rw [heq]
  exact Std.ReflCmp.compare_self

/-- The entries after `m[k] = v`: this one, and those of the other keys. -/
theorem toList_insert_perm (m : ExtTreeMap α β cmp) (k : α) (v : β) :
    (m.insert k v).toList.Perm ((k, v) :: (m.erase k).toList) := by
  have hnodup : ((k, v) :: (m.erase k).toList).Nodup := by
    refine List.nodup_cons.mpr ⟨fun hmem => ?_, nodup_toList _⟩
    rw [ExtTreeMap.mem_toList_iff_getElem?_eq_some, ExtTreeMap.getElem?_erase_self] at hmem
    cases hmem
  apply (List.perm_ext_iff_of_nodup (nodup_toList _) hnodup).mpr
  intro ⟨i, w⟩
  rw [List.mem_cons, ExtTreeMap.mem_toList_iff_getElem?_eq_some, ExtTreeMap.mem_toList_iff_getElem?_eq_some,
    ExtTreeMap.getElem?_insert, ExtTreeMap.getElem?_erase, Prod.mk.injEq]
  split
  · next heq =>
    obtain rfl := LawfulEqCmp.eq_of_compare heq
    constructor
    · exact fun h => .inl ⟨rfl, (Option.some.inj h).symm⟩
    · rintro (⟨-, rfl⟩ | h)
      · rfl
      · cases h
  · next hne =>
    constructor
    · exact .inr
    · rintro (⟨rfl, -⟩ | h)
      · exact absurd Std.ReflCmp.compare_self hne
      · exact h

/-- A value that is there already. -/
theorem insert_of_getElem? {m : ExtTreeMap α β cmp} {k : α} {v : β} (h : m[k]? = some v) :
    m.insert k v = m := by
  apply ExtTreeMap.ext_getElem?
  intro i
  rw [ExtTreeMap.getElem?_insert]
  split
  · next heq =>
    rw [← LawfulEqCmp.eq_of_compare heq]
    exact h.symm
  · rfl

theorem erase_of_getElem? {m : ExtTreeMap α β cmp} {k : α} (h : m[k]? = none) : m.erase k = m := by
  apply ExtTreeMap.ext_getElem?
  intro i
  rw [ExtTreeMap.getElem?_erase]
  split
  · next heq =>
    rw [← LawfulEqCmp.eq_of_compare heq]
    exact h.symm
  · rfl

theorem mem_of_mem_erase {m : ExtTreeMap α β cmp} {k : α} {x : α × β} (h : x ∈ (m.erase k).toList) :
    x ∈ m.toList := by
  obtain ⟨i, v⟩ := x
  rw [ExtTreeMap.mem_toList_iff_getElem?_eq_some, ExtTreeMap.getElem?_erase] at h
  split at h
  · cases h
  · exact ExtTreeMap.mem_toList_iff_getElem?_eq_some.mpr h

omit [LawfulEqCmp cmp] in
theorem size_insertAll_le (m : ExtTreeMap α β cmp) (l : List (α × β)) :
    (insertAll m l).size ≤ m.size + l.length := by
  induction l generalizing m with
  | nil => exact Nat.le_refl _
  | cons x l ih =>
    have hone : (m.insert x.1 x.2).size ≤ m.size + 1 := ExtTreeMap.size_insert_le
    have hrest := ih (m.insert x.1 x.2)
    show (insertAll (m.insert x.1 x.2) l).size ≤ _
    rw [List.length_cons]
    omega

/-- An entry has been written, or was there before. -/
theorem mem_insertAll {m : ExtTreeMap α β cmp} {l : List (α × β)} {x : α × β}
    (h : x ∈ (insertAll m l).toList) : x ∈ l ∨ x ∈ m.toList := by
  induction l generalizing m with
  | nil => exact .inr h
  | cons y l ih =>
    rcases ih h with hl | hm
    · exact .inl (List.mem_cons_of_mem _ hl)
    · rcases List.mem_cons.mp ((toList_insert_perm m y.1 y.2).mem_iff.mp hm) with rfl | hm
      · exact .inl (List.mem_cons_self ..)
      · exact .inr (mem_of_mem_erase hm)

/-! ### Maps of lists -/

/-- `m[k].push_back(v)` -/
def push (m : ExtTreeMap α (List β) cmp) (x : α × β) : ExtTreeMap α (List β) cmp :=
  m.insert x.1 (m.getD x.1 [] ++ [x.2])

def pushAll (m : ExtTreeMap α (List β) cmp) (l : List (α × β)) : ExtTreeMap α (List β) cmp :=
  l.foldl push m

/-- The items of the lists, each with its key. -/
def items (l : List (α × List β)) : List (α × β) := l.flatMap fun x => x.2.map fun v => (x.1, v)

/-- Items pushed under one key go to the end of its list. -/
theorem pushAll_insert (m : ExtTreeMap α (List β) cmp) (k : α) (l vs : List β) :
    pushAll (m.insert k l) (vs.map fun v => (k, v)) = m.insert k (l ++ vs) := by
  induction vs generalizing l with
  | nil => rw [List.append_nil]; rfl
  | cons v vs ih =>
    have hpush : push (m.insert k l) (k, v) = m.insert k (l ++ [v]) := by
      apply ExtTreeMap.ext_getElem?
      intro i
      rw [push, ExtTreeMap.getD_insert_self, ExtTreeMap.getElem?_insert, ExtTreeMap.getElem?_insert,
        ExtTreeMap.getElem?_insert]
      split <;> rfl
    rw [List.map_cons, pushAll, List.foldl_cons, hpush]
    show pushAll (m.insert k (l ++ [v])) _ = _
    rw [ih, List.append_assoc, List.singleton_append]

/-- The items of a list that is not empty make an entry of it. -/
theorem pushAll_new (m : ExtTreeMap α (List β) cmp) {k : α} {vs : List β} (hm : k ∉ m) (hvs : vs ≠ []) :
    pushAll m (vs.map fun v => (k, v)) = m.insert k vs := by
  cases vs with
  | nil => exact absurd rfl hvs
  | cons v vs =>
    have hpush : push m (k, v) = m.insert k [v] := by
      rw [push, ExtTreeMap.getD_eq_fallback hm]
      rfl
    rw [List.map_cons, pushAll, List.foldl_cons, hpush]
    exact pushAll_insert m k [v] vs

theorem pushAll_items (m : ExtTreeMap α (List β) cmp) (l : List (α × List β))
    (hl : l.Pairwise fun a b => ¬ cmp a.1 b.1 = .eq) (hm : ∀ x ∈ l, x.1 ∉ m) (hne : ∀ x ∈ l, x.2 ≠ []) :
    pushAll m (items l) = insertAll m l := by
  induction l generalizing m with
  | nil => rfl
  | cons x l ih =>
    obtain ⟨hx, hl⟩ := List.pairwise_cons.mp hl
    have hentry := pushAll_new m (hm x (List.mem_cons_self ..)) (hne x (List.mem_cons_self ..))
    have hitems : items (x :: l) = (x.2.map fun v => (x.1, v)) ++ items l := rfl
    rw [hitems, pushAll, List.foldl_append]
    show pushAll (pushAll m _) (items l) = insertAll (m.insert x.1 x.2) l
    rw [hentry]
    apply ih _ hl
    · intro y hy
      rw [ExtTreeMap.mem_insert, not_or]
      exact ⟨hx y hy, hm y (List.mem_cons_of_mem _ hy)⟩
    · exact fun y hy => hne y (List.mem_cons_of_mem _ hy)

theorem foldl_push_toList (t : ExtTreeMap α (List β) cmp) (hne : ∀ x ∈ t.toList, x.2 ≠ []) :
    pushAll ∅ (items t.toList) = t := by
  rw [pushAll_items ∅ t.toList ExtTreeMap.distinct_keys_toList
    (fun x _ => ExtTreeMap.not_mem_empty) hne, foldl_insert_toList]

/-! ### What has been pushed -/

theorem items_cons (k : α) (vs : List β) (l : List (α × List β)) :
    items ((k, vs) :: l) = vs.map (fun v => (k, v)) ++ items l := rfl

/-- The items of one key, and the others. -/
theorem items_perm (m : ExtTreeMap α (List β) cmp) (k : α) :
    (items m.toList).Perm ((m.getD k []).map (fun v => (k, v)) ++ items (m.erase k).toList) := by
  rw [ExtTreeMap.getD_eq_getD_getElem?]
  cases h : m[k]? with
  | some vs =>
    have hperm := (toList_insert_perm m k vs).flatMap_right fun x => x.2.map fun v => (x.1, v)
    rw [insert_of_getElem? h] at hperm
    exact hperm
  | none =>
    rw [erase_of_getElem? h]
    exact .refl _

theorem items_push (m : ExtTreeMap α (List β) cmp) (x : α × β) :
    (items (push m x).toList).Perm (x :: items m.toList) := by
  obtain ⟨k, v⟩ := x
  have hnew := (toList_insert_perm m k (m.getD k [] ++ [v])).flatMap_right fun x => x.2.map fun v => (x.1, v)
  refine hnew.trans ?_
  show (items ((k, m.getD k [] ++ [v]) :: (m.erase k).toList)).Perm _
  rw [items_cons, List.map_append, List.append_assoc]
  exact List.perm_middle.trans ((items_perm m k).symm.cons (k, v))

theorem items_pushAll (m : ExtTreeMap α (List β) cmp) (l : List (α × β)) :
    (items (pushAll m l).toList).Perm (l ++ items m.toList) := by
  induction l generalizing m with
  | nil => exact .refl _
  | cons x l ih => exact (ih (push m x)).trans (((items_push m x).append_left l).trans List.perm_middle)

/-- No list is empty. -/
theorem push_ne_nil {m : ExtTreeMap α (List β) cmp} (hne : ∀ y ∈ m.toList, y.2 ≠ []) (x : α × β) :
    ∀ y ∈ (push m x).toList, y.2 ≠ [] := by
  intro y hy
  rcases List.mem_cons.mp ((toList_insert_perm m x.1 _).mem_iff.mp hy) with rfl | hy
  · exact List.append_ne_nil_of_right_ne_nil _ (List.cons_ne_nil x.2 [])
  · exact hne y (mem_of_mem_erase hy)

theorem pushAll_ne_nil (l : List (α × β)) {m : ExtTreeMap α (List β) cmp} (hne : ∀ y ∈ m.toList, y.2 ≠ []) :
    ∀ y ∈ (pushAll m l).toList, y.2 ≠ [] := by
  induction l generalizing m with
  | nil => exact hne
  | cons x l ih => exact ih (push_ne_nil hne x)

end CascadePlayground.OrderedMap
