import CascadePlayground.Affinity.Keys
import CascadePlayground.Program
import CascadePlayground.Text.Strings

/-! The store that the pipeline shares.

A store is the list of its puts, the last one first. `get` returns the last value
that was put under a key, and `list_keys` the keys of a pool, which are the keys
under its path. A client is a program of these calls. It can fail when it reads
an int or a string from an object that does not hold one, an absent object has no
bytes at all, when it allocates a buffer of negative length, when it takes a string
apart, and when a sum of two ints overflows.

Of a random buffer only the size is kept. -/
namespace CascadePlayground.Affinity

/-- The bytes of an object, by what put them there. -/
inductive Blob where
  | int (value : Int)
  | str (value : List Char)
  | random (size : Nat)
  /-- The result of a category. -/
  | hash (value : UInt64)
deriving DecidableEq, Repr

def Blob.size : Blob → Nat
  | int _ => 4
  | str value => value.length + 1
  | random size => size
  | hash _ => 8

abbrev Store := List (List Char × Blob)

inductive Op where
  | listKeys (pool : List Char)
  | get (key : List Char)
  | put (key : List Char) (blob : Blob)

def Reply : Op → Type
  | .listKeys _ => List (List Char)
  | .get _ => Option Blob
  | .put _ _ => Unit

namespace Store

def listKeys (s : Store) (pool : List Char) : List (List Char) :=
  (s.map Prod.fst).filter (pool ++ objPathSep).isPrefixOf

def get (s : Store) (key : List Char) : Option Blob := s.lookup key

def put (s : Store) (key : List Char) (blob : Blob) : Store := (key, blob) :: s

/-- What the store holds under one of the keys of the pipeline. -/
def value (s : Store) (k : Key) : Option Blob := s.get k.path

theorem value_put (s : Store) (k k' : Key) (b : Blob) :
    (s.put k.path b).value k' = if k' = k then some b else s.value k' := by
  rw [value, put, get, List.lookup_cons]
  by_cases h : k' = k
  · subst h
    rw [beq_self_eq_true, if_pos rfl]
  · have hne : (k'.path == k.path) = false := beq_false_of_ne fun he => h (Key.path_injective he)
    rw [hne, if_neg h]
    rfl

theorem mem_listKeys {s : Store} {k : Key} {pool : List Char} (hp : (pool ++ objPathSep) <+: k.path)
    (h : s.value k ≠ none) : k.path ∈ s.listKeys pool := by
  rw [listKeys, List.mem_filter]
  refine ⟨?_, List.isPrefixOf_iff_prefix.mpr hp⟩
  induction s with
  | nil => exact absurd rfl h
  | cons x s ih =>
    rw [value, get, List.lookup_cons] at h
    split at h
    · next he =>
      rw [List.map_cons, beq_iff_eq.mp he]
      exact List.mem_cons_self ..
    · exact List.mem_cons_of_mem _ (ih h)

end Store

/-- The store's side of a call. -/
def act : (op : Op) → Store → Reply op × Store
  | .listKeys pool, s => (s.listKeys pool, s)
  | .get key, s => (s.get key, s)
  | .put key blob, s => ((), s.put key blob)

inductive Failure where
  /-- The object read does not hold an int. -/
  | noInt
  /-- The object read does not hold a string. -/
  | noString
  /-- `std::bad_array_new_length` -/
  | badArrayLength
  | exception (e : Text.Exception)
  /-- A signed sum that does not fit, which is undefined. -/
  | overflow
deriving DecidableEq, Repr

abbrev Client := Program Op Reply Failure

def listKeys (pool : List Char) : Client (List (List Char)) := Program.perform (Op.listKeys pool)

def get (key : List Char) : Client (Option Blob) := Program.perform (Op.get key)

def put (key : List Char) (blob : Blob) : Client Unit := Program.perform (Op.put key blob)

/-- `put_config_object` of an int. -/
def putConfigInt (key : List Char) (value : Int) : Client Unit := put key (.int value)

/-- `put_config_object` of a string. -/
def putConfigStr (key : List Char) (value : List Char) : Client Unit := put key (.str value)

/-- `get_config_int` -/
def getConfigInt (key : List Char) : Client Int := do
  match ← get key with
  | some (.int value) => pure value
  | _ => Program.fail .noInt

/-- `get_config_str` -/
def getConfigStr (key : List Char) : Client (List Char) := do
  match ← get key with
  | some (.str value) => pure value
  | _ => Program.fail .noString

/-- What a string function gives or throws. -/
def lift {α : Type} : Except Text.Exception α → Client α
  | .ok a => pure a
  | .error e => Program.fail (.exception e)

/-- `put_random_object`, for sizes of which `random_buffer` fills a buffer; a negative one is
refused. -/
def putRandomObject (key : List Char) (size : Int) : Client Unit :=
  if size < 0 then Program.fail .badArrayLength else put key (.random size.toNat)

/-! ### Calls alone with the store -/

theorem run_get (key : List Char) (s : Store) : (get key).run act s = .ok (s.get key, s) := rfl

theorem run_put (key : List Char) (b : Blob) (s : Store) :
    (put key b).run act s = .ok ((), s.put key b) := rfl

theorem run_getConfigInt {s : Store} {k : Key} {v : Int} (h : s.value k = some (.int v)) :
    (getConfigInt k.path).run act s = .ok (v, s) := by
  have hget : s.get k.path = some (.int v) := h
  rw [getConfigInt, Program.run_bind, run_get, hget]
  rfl

theorem run_getConfigStr {s : Store} {k : Key} {v : List Char} (h : s.value k = some (.str v)) :
    (getConfigStr k.path).run act s = .ok (v, s) := by
  have hget : s.get k.path = some (.str v) := h
  rw [getConfigStr, Program.run_bind, run_get, hget]
  rfl

end CascadePlayground.Affinity
