import CascadePlayground.Affinity.Store
import Mathlib.Data.PNat.Notation

/-! `setup()` of the pipeline client.

A client looks at the configuration pool. If that is empty it puts the sizes and
the numbers of parts, and then all the parts. Otherwise it compares its sizes with
the stored ones. Where they are the same it puts the parts that are missing, if
any, and the new number; where they are not it puts the new size and its parts.
The entry parts and the data parts are treated alike (`updateConfig`).

What is left out does not touch the objects of the store: the creation of the
pools, the processor affinity, the arrays for the time stamps. -/
namespace CascadePlayground.Affinity
open Text

/-- `NUM_CATEGORIES`, unless the build sets it. -/
def defaultCategories : ℕ+ := ⟨10, by decide⟩

structure Parameters where
  entryPartSize : Int
  numEntryParts : Int
  dataPartSize : Int
  numDataParts : Int
deriving DecidableEq, Repr

/-- `for(int i=from;i<to;i++)` -/
def intRange (first last : Int) : List Int :=
  (List.range (last - first).toNat).map fun (j : Nat) => first + j

/-- What a client does about one size and one number of parts when there is a
configuration; how many parts it is to put. -/
def updateConfig (sizeKey numKey : List Char) (partSize numParts : Int) : Client Int := do
  if (← getConfigInt sizeKey) = partSize then
    let configNumParts ← getConfigInt numKey
    if configNumParts < numParts then
      putConfigInt numKey numParts
      pure (numParts - configNumParts)
    else pure 0
  else
    putConfigInt sizeKey partSize
    pure numParts

/-- `entry_parts_to_put` and `parts_to_put`. -/
def config (p : Parameters) : Client (Int × Int) := do
  if (← listKeys objConfigPath).isEmpty then
    putConfigInt objConfigEntryPartSize p.entryPartSize
    putConfigInt objConfigNumEntryParts p.numEntryParts
    putConfigInt objConfigDataPartSize p.dataPartSize
    putConfigInt objConfigNumDataParts p.numDataParts
    pure (p.numEntryParts, p.numDataParts)
  else
    let entryPartsToPut ← updateConfig objConfigEntryPartSize objConfigNumEntryParts
      p.entryPartSize p.numEntryParts
    let partsToPut ← updateConfig objConfigDataPartSize objConfigNumDataParts
      p.dataPartSize p.numDataParts
    pure (entryPartsToPut, partsToPut)

def putEntryData (p : Parameters) (entryPartsToPut : Int) : Client Unit :=
  (intRange (p.numEntryParts - entryPartsToPut) p.numEntryParts).forM fun i =>
    putRandomObject (objEntryPath ++ objPathSep ++ "data_".toList ++ integer i) p.entryPartSize

def putCategoriesData (numCategories : ℕ+) (p : Parameters) (partsToPut : Int) : Client Unit :=
  (List.range numCategories).forM fun c =>
    (intRange (p.numDataParts - partsToPut) p.numDataParts).forM fun i =>
      putRandomObject (objDataCategoryPath ++ objPathSep ++ decimal c ++ objPathSep ++ integer i)
        p.dataPartSize

def setup (numCategories : ℕ+) (p : Parameters) (clientId : Nat) (clientIp : List Char) :
    Client Unit := do
  let (entryPartsToPut, partsToPut) ← config p
  putConfigStr (objConfigClientData ++ decimal clientId) clientIp
  putEntryData p entryPartsToPut
  putCategoriesData numCategories p partsToPut

/-! ### The loops -/

theorem mem_intRange {i first last : Int} : i ∈ intRange first last ↔ first ≤ i ∧ i < last := by
  rw [intRange, List.mem_map]
  constructor
  · intro h
    obtain ⟨j, hj, rfl⟩ := h
    have := List.mem_range.mp hj
    omega
  · intro h
    exact ⟨(i - first).toNat, List.mem_range.mpr (by omega), by omega⟩

/-- Loops over part numbers with the same bodies. -/
theorem forM_intRange_congr {first last : Int} (h : 0 ≤ first ∨ last ≤ first) {f g : Int → Client Unit}
    (hfg : ∀ i : Nat, f i = g i) : (intRange first last).forM f = (intRange first last).forM g := by
  have hmap : ∀ f : Int → Client Unit, (intRange first last).forM f =
      (List.range (last - first).toNat).forM fun (j : Nat) => f (first + j) := fun f => List.forM_map
  rcases h with h | h
  · obtain ⟨m, rfl⟩ := Int.eq_ofNat_of_zero_le h
    have hbody : (fun j : Nat => f (m + j)) = fun j : Nat => g (m + j) := funext fun j => hfg (m + j)
    rw [hmap f, hmap g, hbody]
  · have hempty : (last - first).toNat = 0 := by omega
    rw [hmap f, hmap g, hempty]
    rfl

/-- The entry parts are put under their keys. -/
theorem putEntryData_eq (p : Parameters) {n : Int} (h : n ≤ p.numEntryParts ∨ n ≤ 0) :
    putEntryData p n = (intRange (p.numEntryParts - n) p.numEntryParts).forM fun i =>
      putRandomObject (Key.entryData i.toNat).path p.entryPartSize :=
  forM_intRange_congr (by omega) fun i => by rw [integer_natCast, Int.toNat_natCast]; rfl

theorem putCategoriesData_eq (numCategories : ℕ+) (p : Parameters) {n : Int}
    (h : n ≤ p.numDataParts ∨ n ≤ 0) :
    putCategoriesData numCategories p n = (List.range numCategories).forM fun k =>
      (intRange (p.numDataParts - n) p.numDataParts).forM fun i =>
        putRandomObject (Key.categoryData k i.toNat).path p.dataPartSize := by
  unfold putCategoriesData
  congr 1
  funext k
  exact forM_intRange_congr (by omega) fun i => by rw [integer_natCast, Int.toNat_natCast]; rfl

end CascadePlayground.Affinity
