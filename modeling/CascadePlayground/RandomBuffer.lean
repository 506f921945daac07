import CascadePlayground.Tiling
import CascadePlayground.Transition
import Mathlib.Data.Int.ConditionallyCompleteOrder
import Mathlib.Order.SuccPred.CompleteLinearOrder

/-! The random buffer of the clients.

`random_buffer` fills a buffer with random bytes, a chunk at a time and then what
remains. The same loop is in the `common.hpp` of six programs. It asks whether one
more chunk fits by an addition of two `int`, and near the largest `int` that
addition overflows: the buffer is filled exactly when the size is not in the last
chunk that an `int` can hold (`random_buffer_fills_iff`). -/
namespace CascadePlayground.RandomBuffer
open StateTransition Transition Tiling

def randomBufferChunk : Int := 100

def intMax : Int := 2147483647

/-- What an `int` can hold; there is no behaviour for anything else. -/
def asInt (n : Int) : Option Int := if -intMax - 1 ≤ n ∧ n ≤ intMax then some n else none

/-- A call of `memset` on the buffer. -/
structure Memset where
  start : Int
  byte : Nat
  length : Int
deriving DecidableEq, Repr

def Memset.stop (m : Memset) : Int := m.start + m.length

def Memset.bounds (m : Memset) : Int × Int := (m.start, m.stop)

/-- The bytes that are set. -/
def Memset.range (m : Memset) : Set Int := Set.Ico m.start m.stop

inductive Control where
  | loop
  | remainder
  | returned
  /-- A signed addition has overflowed. -/
  | overflow
deriving DecidableEq, Repr

structure State where
  control : Control
  alreadySet : Int
  memsets : List Memset
deriving DecidableEq, Repr

def start : State := ⟨.loop, 0, []⟩

section Source
variable (size : Int) (rng : Nat → Nat)

/-- Each call takes the next number of `cascade_client_rng`. -/
def State.memset (s : State) (length : Int) : State :=
  {s with memsets := s.memsets ++ [⟨s.alreadySet, rng s.memsets.length % 256, length⟩]}

def next (s : State) : Option State :=
  match s.control with
  | .loop =>
    match asInt (s.alreadySet + randomBufferChunk) with
    | none => some {s with control := .overflow}
    | some stop =>
      if stop ≤ size then
        -- `+=` makes the addition of the test once more
        some {s.memset rng randomBufferChunk with alreadySet := stop}
      else some {s with control := .remainder}
  | .remainder =>
    match asInt (size - s.alreadySet) with
    | none => some {s with control := .overflow}
    | some remaining =>
      if 0 < remaining then some {s.memset rng remaining with control := .returned}
      else some {s with control := .returned}
  | .returned | .overflow => none

/-- The call has returned, and each byte of the buffer has been set once. -/
structure Fills (s : State) : Prop where
  returned : s.control = .returned
  disjoint : s.memsets.Pairwise fun m m' => Disjoint m.range m'.range
  inside : ∀ m ∈ s.memsets, m.range ⊆ Set.Ico 0 size
  covers : ∀ i ∈ Set.Ico 0 size, ∃ m ∈ s.memsets, i ∈ m.range

end Source

/-! ### What a step does -/

variable {size : Int} {rng : Nat → Nat}

/-- Up to where the buffer is filled. -/
def State.filled (size : Int) (s : State) : Int :=
  match s.control with
  | .returned => size
  | _ => s.alreadySet

/-- What the test has said. -/
def State.Tested (size : Int) (s : State) : Prop :=
  match s.control with
  | .loop => True
  | .remainder | .returned => size < s.alreadySet + 100 ∧ s.alreadySet + 100 ≤ intMax
  | .overflow => intMax < s.alreadySet + 100

structure Inv (size : Int) (s : State) : Prop where
  nonneg : 0 ≤ s.alreadySet
  le : s.alreadySet ≤ size
  chunks : s.alreadySet % 100 = 0
  tiles : Tiles (s.memsets.map Memset.bounds) 0 (s.filled size)
  tested : s.Tested size

inductive Effect (size : Int) (rng : Nat → Nat) (s : State) : State → Prop where
  | chunk : s.control = .loop → s.alreadySet + 100 ≤ size →
      Effect size rng s {s.memset rng 100 with alreadySet := s.alreadySet + 100}
  | leave : s.control = .loop → size < s.alreadySet + 100 → s.alreadySet + 100 ≤ intMax →
      Effect size rng s {s with control := .remainder}
  | overflow : s.control = .loop → intMax < s.alreadySet + 100 →
      Effect size rng s {s with control := .overflow}
  | remaining : s.control = .remainder → s.alreadySet < size →
      Effect size rng s {s.memset rng (size - s.alreadySet) with control := .returned}
  | nothing : s.control = .remainder → s.alreadySet = size →
      Effect size rng s {s with control := .returned}

theorem asInt_of_le {n : Int} (h : 0 ≤ n) (h' : n ≤ intMax) : asInt n = some n := by
  have hmin : -intMax - 1 ≤ n := Int.le_trans (by decide) h
  rw [asInt, if_pos ⟨hmin, h'⟩]

theorem asInt_of_lt {n : Int} (h : intMax < n) : asInt n = none := by
  rw [asInt, if_neg fun hn => absurd hn.2 (Int.not_le.mpr h)]

/-- A call of `memset` goes on where the filled part ends. -/
theorem tiles_memset (rng : Nat → Nat) {s : State} {length : Int}
    (h : Tiles (s.memsets.map Memset.bounds) 0 s.alreadySet) (hlength : 0 ≤ length) :
    Tiles ((s.memset rng length).memsets.map Memset.bounds) 0 (s.alreadySet + length) := by
  have hconcat := h.concat (Int.le_add_of_nonneg_right hlength)
  rw [State.memset, List.map_append]
  exact hconcat

section Run
variable (hmax : size ≤ intMax)
include hmax

theorem effect_of_next {s s' : State} (h : Inv size s) (hs : s' ∈ next size rng s) :
    Effect size rng s s' := by
  obtain ⟨control, alreadySet, memsets⟩ := s
  have hnonneg : 0 ≤ alreadySet := h.nonneg
  have hle : alreadySet ≤ size := h.le
  cases control with
  | loop =>
    by_cases hfits : alreadySet + 100 ≤ intMax
    · have hstop : asInt (alreadySet + randomBufferChunk) = some (alreadySet + 100) :=
        asInt_of_le (Int.add_nonneg hnonneg (by decide)) hfits
      simp only [next, hstop] at hs
      split at hs
      · next hin =>
        obtain rfl := Option.some.inj hs
        exact .chunk rfl hin
      · next hout =>
        obtain rfl := Option.some.inj hs
        exact .leave rfl (Int.not_le.mp hout) hfits
    · have hstop : asInt (alreadySet + randomBufferChunk) = none := asInt_of_lt (Int.not_le.mp hfits)
      simp only [next, hstop] at hs
      obtain rfl := Option.some.inj hs
      exact .overflow rfl (Int.not_le.mp hfits)
  | remainder =>
    have hremaining : asInt (size - alreadySet) = some (size - alreadySet) :=
      asInt_of_le (by omega) (by omega)
    simp only [next, hremaining] at hs
    split at hs
    · next hpos =>
      obtain rfl := Option.some.inj hs
      exact .remaining rfl (Int.sub_pos.mp hpos)
    · next hpos =>
      obtain rfl := Option.some.inj hs
      exact .nothing rfl (by show alreadySet = size; omega)
  | returned => cases hs
  | overflow => cases hs

theorem Inv.step : Preserved (fun s s' => s' ∈ next size rng s) (Inv size) := by
  intro s s' h hs
  have heffect := effect_of_next hmax h hs
  obtain ⟨control, alreadySet, memsets⟩ := s
  obtain ⟨hnonneg, hle, hchunks, htiles, htested⟩ := h
  cases heffect with
  | chunk hc hin =>
    cases hc
    exact ⟨Int.add_nonneg hnonneg (by decide), hin, (Int.add_emod_right ..).trans hchunks,
      tiles_memset rng htiles (by decide), trivial⟩
  | leave hc hout hfits =>
    cases hc
    exact ⟨hnonneg, hle, hchunks, htiles, hout, hfits⟩
  | overflow hc hout =>
    cases hc
    exact ⟨hnonneg, hle, hchunks, htiles, hout⟩
  | remaining hc hlt =>
    cases hc
    have hend := tiles_memset rng htiles (Int.sub_nonneg.mpr hle)
    have hsize : alreadySet + (size - alreadySet) = size := by omega
    rw [hsize] at hend
    exact ⟨hnonneg, hle, hchunks, hend, htested⟩
  | nothing hc heq =>
    cases hc
    exact ⟨hnonneg, hle, hchunks, heq ▸ htiles, htested⟩

/-! ### The whole run -/

def measure (size : Int) (s : State) : Nat :=
  (size - s.alreadySet).toNat + match s.control with
    | .loop => 2
    | .remainder => 1
    | .returned | .overflow => 0

theorem measure_fall {s s' : State} (h : Inv size s) (hs : s' ∈ next size rng s) :
    measure size s' < measure size s := by
  have heffect := effect_of_next hmax h hs
  obtain ⟨control, alreadySet, memsets⟩ := s
  cases heffect with
  | chunk hc hin =>
    cases hc
    have hin : alreadySet + 100 ≤ size := hin
    show (size - (alreadySet + 100)).toNat + 2 < (size - alreadySet).toNat + 2
    omega
  | leave hc _ _ =>
    cases hc
    exact Nat.lt_succ_self _
  | overflow hc _ =>
    cases hc
    exact Nat.lt_add_of_pos_right (Nat.succ_pos 1)
  | remaining hc _ =>
    cases hc
    exact Nat.lt_succ_self _
  | nothing hc _ =>
    cases hc
    exact Nat.lt_succ_self _

omit hmax in
theorem inv_start (h0 : 0 ≤ size) : Inv size start := ⟨Int.le_refl _, h0, rfl, .nil 0, trivial⟩

theorem Inv.reached (h0 : 0 ≤ size) {s : State} (h : Reaches (next size rng) start s) : Inv size s :=
  (Inv.step hmax).run h (inv_start h0)

theorem halts (h0 : 0 ≤ size) : Halts (next size rng) start :=
  halts_of_measure Nat.lt_wfRel.wf (measure size) (Inv.step hmax) (fun _ _ => measure_fall hmax) start
    (inv_start h0)

end Run

theorem control_of_rest {s : State} (h : next size rng s = none) :
    s.control = .returned ∨ s.control = .overflow := by
  obtain ⟨control, alreadySet, memsets⟩ := s
  cases control with
  | loop =>
    simp only [next] at h
    split at h
    · cases h
    · split at h <;> cases h
  | remainder =>
    simp only [next] at h
    split at h
    · cases h
    · split at h <;> cases h
  | returned => exact .inl rfl
  | overflow => exact .inr rfl

/-- All chunks but the last one that an `int` can hold leave room for the next. -/
theorem Inv.lt_of_returned {s : State} (h : Inv size s) (hc : s.control = .returned) : size < 2147483600 := by
  have hchunks := h.chunks
  have htested := h.tested
  rw [State.Tested, hc] at htested
  obtain ⟨hout, hfits⟩ := htested
  rw [intMax] at hfits
  omega

theorem Inv.le_of_overflow {s : State} (h : Inv size s) (hc : s.control = .overflow) : 2147483600 ≤ size := by
  have hchunks := h.chunks
  have hle := h.le
  have htested := h.tested
  rw [State.Tested, hc] at htested
  change intMax < s.alreadySet + 100 at htested
  rw [intMax] at htested
  omega

theorem Inv.fills {s : State} (h : Inv size s) (hc : s.control = .returned) : Fills size s := by
  have htiles := h.tiles
  rw [State.filled, hc] at htiles
  have hpairwise := htiles.pairwise
  rw [List.pairwise_map] at hpairwise
  refine ⟨hc, hpairwise, fun m hm => htiles.subset (List.mem_map_of_mem hm), ?_⟩
  intro i hi
  obtain ⟨r, hr, hir⟩ := htiles.mem_iff.mpr hi
  obtain ⟨m, hm, rfl⟩ := List.mem_map.mp hr
  exact ⟨m, hm, hir⟩

/-- In the last chunk no run returns. -/
theorem not_returned_of_large (h0 : 2147483600 ≤ size) (hmax : size ≤ intMax) {s : State}
    (h : Reaches (next size rng) start s) : s.control ≠ .returned := by
  intro hc
  have hlt := (Inv.reached hmax (by omega) h).lt_of_returned hc
  omega

/-- Below the last chunk the run returns with the buffer filled. -/
theorem exists_fills (h0 : 0 ≤ size) (hsize : size < 2147483600) (rng : Nat → Nat) :
    ∃ s, Reaches (next size rng) start s ∧ next size rng s = none ∧ Fills size s := by
  have hmax : size ≤ intMax := by
    rw [intMax]
    omega
  have hhalts : Halts (next size rng) start := halts hmax h0
  obtain ⟨s, hreach, hrest⟩ := hhalts
  have hinv := Inv.reached hmax h0 hreach
  refine ⟨s, hreach, hrest, hinv.fills ?_⟩
  rcases control_of_rest hrest with hc | hc
  · exact hc
  · have hle := hinv.le_of_overflow hc
    omega

/-- **The buffer is filled exactly when the last chunk is not touched**: the loop ends,
no addition overflows, and each byte of the buffer is set once. -/
theorem random_buffer_fills_iff (size : Int) (h0 : 0 ≤ size) (hmax : size ≤ intMax) (rng : Nat → Nat) :
    (∃ s, Reaches (next size rng) start s ∧ next size rng s = none ∧ Fills size s) ↔ size < 2147483600 := by
  constructor
  · intro h
    obtain ⟨s, hreach, -, hfills⟩ := h
    exact (Inv.reached hmax h0 hreach).lt_of_returned hfills.returned
  · intro hsize
    exact exists_fills h0 hsize rng

/-- Two chunks and a remainder. -/
theorem twoChunks_fills_iff :
    (∃ s, Reaches (next 250 id) start s ∧ next 250 id s = none ∧ Fills 250 s) ↔ (250 : Int) < 2147483600 :=
  random_buffer_fills_iff 250 (by decide) (by decide) id

/-- With the largest `int` the run ends in an overflow, and nothing is returned. -/
theorem intMax_overflows :
    (∃ s, Reaches (next intMax id) start s ∧ s.control = .overflow) ∧
      ¬∃ s, Reaches (next intMax id) start s ∧ next intMax id s = none ∧ Fills intMax s := by
  have hlarge : 2147483600 ≤ intMax := by decide
  constructor
  · have hhalts : Halts (next intMax id) start := halts (Int.le_refl _) (by decide)
    obtain ⟨s, hreach, hrest⟩ := hhalts
    have hreturned := not_returned_of_large hlarge (Int.le_refl _) hreach
    exact ⟨s, hreach, (control_of_rest hrest).resolve_left hreturned⟩
  · rintro ⟨s, hreach, -, hfills⟩
    exact not_returned_of_large hlarge (Int.le_refl _) hreach hfills.returned

end CascadePlayground.RandomBuffer
