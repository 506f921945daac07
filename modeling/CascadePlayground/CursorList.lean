import Mathlib.Data.List.Rotate

/-! Linked lists with one iterator, read as a ring.

A `CursorList` is a doubly linked list together with the only iterator that is
moved over it: the elements before the iterator and those from the iterator on.
The operations are the iterator's, and are `none` where the iterator is
`end()`, so that a use of it outside the list shows.

A walk that goes on from the front when it meets the end sees the list as a ring
(`ring`): a step of the walk moves the ring's first element to its back
(`ring_increment`), an erasure drops it (`ring_erase`). -/
namespace CascadePlayground

structure CursorList (α : Type*) where
  before : List α
  after : List α
deriving DecidableEq, Repr

namespace CursorList
variable {α : Type*}

/-- The list, the iterator at its first element. -/
def ofList (l : List α) : CursorList α := ⟨[], l⟩

def toList (c : CursorList α) : List α := c.before ++ c.after

def size (c : CursorList α) : Nat := c.toList.length

/-- `*it` -/
def deref (c : CursorList α) : Option α := c.after.head?

/-- `it++` -/
def increment (c : CursorList α) : Option (CursorList α) :=
  match c.after with
  | [] => none
  | x :: rest => some ⟨c.before ++ [x], rest⟩

/-- `it = list.erase(it)` -/
def erase (c : CursorList α) : Option (CursorList α) :=
  match c.after with
  | [] => none
  | _ :: rest => some ⟨c.before, rest⟩

/-- `if(it == list.end()) it = list.begin()` -/
def wrap (c : CursorList α) : CursorList α :=
  if c.after.isEmpty then ⟨[], c.before⟩ else c

/-- The elements in the order a circular walk from the iterator meets them. -/
def ring (c : CursorList α) : List α := c.after ++ c.before

/-- The iterator is `end()` only when the list is empty. -/
def Wrapped (c : CursorList α) : Prop := c.after = [] → c.before = []

theorem wrapped_ofList (l : List α) : (ofList l).Wrapped := fun _ => rfl

theorem wrapped_wrap (c : CursorList α) : c.wrap.Wrapped := by
  unfold wrap Wrapped
  split
  · intro _; rfl
  · next h =>
    intro he
    simp [he] at h

@[simp] theorem toList_wrap (c : CursorList α) : c.wrap.toList = c.toList := by
  unfold wrap
  split
  · next h => simp [toList, List.isEmpty_iff.mp h]
  · rfl

@[simp] theorem ring_wrap (c : CursorList α) : c.wrap.ring = c.ring := by
  unfold wrap
  split
  · next h => simp [ring, List.isEmpty_iff.mp h]
  · rfl

theorem toList_perm_ring (c : CursorList α) : c.toList.Perm c.ring := List.perm_append_comm

theorem mem_ring {c : CursorList α} {x : α} : x ∈ c.ring ↔ x ∈ c.toList :=
  c.toList_perm_ring.mem_iff.symm

theorem size_eq_ring (c : CursorList α) : c.size = c.ring.length := c.toList_perm_ring.length_eq

/-- A wrapped iterator points at the ring's first element. -/
theorem Wrapped.deref {c : CursorList α} (h : c.Wrapped) : c.deref = c.ring.head? := by
  unfold CursorList.deref ring
  cases ha : c.after with
  | nil => rw [h ha]; rfl
  | cons x rest => rfl

theorem Wrapped.deref_eq_none {c : CursorList α} (h : c.Wrapped) : c.deref = none ↔ c.size = 0 := by
  rw [h.deref, List.head?_eq_none_iff, size_eq_ring, List.length_eq_zero_iff]

/-- What an iterator that points at `x` has from it on. -/
theorem after_of_deref {c : CursorList α} {x : α} (h : c.deref = some x) :
    ∃ rest, c.after = x :: rest := by
  unfold CursorList.deref at h
  cases ha : c.after with
  | nil => rw [ha] at h; cases h
  | cons y rest =>
    rw [ha] at h
    exact ⟨rest, by rw [Option.some.inj h]⟩

theorem mem_of_deref {c : CursorList α} {x : α} (h : c.deref = some x) : x ∈ c.toList := by
  obtain ⟨rest, ha⟩ := after_of_deref h
  simp [toList, ha]

theorem increment_of_deref {c : CursorList α} {x : α} (h : c.deref = some x) :
    ∃ c', c.increment = some c' ∧ c'.toList = c.toList ∧
      ∃ rest, c.ring = x :: rest ∧ c'.ring = rest ++ [x] := by
  obtain ⟨rest, ha⟩ := after_of_deref h
  refine ⟨⟨c.before ++ [x], rest⟩, by simp [increment, ha], by simp [toList, ha], rest ++ c.before, ?_, ?_⟩
  · simp [ring, ha]
  · simp [ring]

theorem erase_of_deref {c : CursorList α} {x : α} (h : c.deref = some x) :
    ∃ c', c.erase = some c' ∧ c.toList.Perm (x :: c'.toList) ∧ c'.toList.Sublist c.toList ∧
      c.ring = x :: c'.ring := by
  obtain ⟨rest, ha⟩ := after_of_deref h
  refine ⟨⟨c.before, rest⟩, by simp [erase, ha], ?_, ?_, ?_⟩
  · simp only [toList, ha]
    exact List.perm_middle
  · simp only [toList, ha]
    exact (List.Sublist.refl _).append (List.sublist_cons_self x rest)
  · simp [ring, ha]

/-- How far a circular walk has to go to an element that satisfies `P`. -/
def distance (P : α → Bool) (c : CursorList α) : Nat := c.ring.findIdx P

theorem distance_le (P : α → Bool) (c : CursorList α) : c.distance P ≤ c.size := by
  rw [size_eq_ring]
  exact List.findIdx_le_length

/-- Going past an element that does not satisfy `P` brings one that does nearer. -/
theorem distance_increment {P : α → Bool} {x : α} {rest : List α} (hx : P x = false)
    (h : ∃ y ∈ rest, P y = true) :
    (rest ++ [x]).findIdx P + 1 = (x :: rest).findIdx P := by
  have hlt : rest.findIdx P < rest.length := List.findIdx_lt_length.mpr h
  rw [List.findIdx_append, if_pos hlt, List.findIdx_cons, hx]
  rfl

end CursorList
end CascadePlayground
