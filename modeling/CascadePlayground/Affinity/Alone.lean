import CascadePlayground.Affinity.Setup

/-! `setup()` alone with the store.

`Writes` says what a client program puts when no other client makes a call
meanwhile, as an overlay on what the store held. It is shown part by part, for the
two ways through the configuration and for the loops over the parts, and then for
all of `setup()` (`Experiment.writes_call`).

The entry parts and the data parts are two `Block`s of the store. `Block.Updated`
says what a call makes of a block that is there already, `Block.Holds` what a
block is. -/
namespace CascadePlayground.Affinity
open Text Program

/-! ### What a client writes -/

/-- Alone with the store, the client gives `a` and writes `f`. -/
def Writes {α : Type} (m : Client α) (s : Store) (a : α) (f : Key → Option Blob) : Prop :=
  ∃ s', m.run act s = .ok (a, s') ∧ ∀ k, s'.value k = (f k).or (s.value k)

/-- The same object under each of the keys. -/
def onKeys (keys : List Key) (b : Blob) (k : Key) : Option Blob := if k ∈ keys then some b else none

variable {α β ι : Type} {s : Store}

theorem Writes.pure (a : α) : Writes (pure a) s a fun _ => none := ⟨s, rfl, fun _ => rfl⟩

theorem Writes.bind {m : Client α} {g : α → Client β} {a : α} {b : β} {f f' : Key → Option Blob}
    (h : Writes m s a f)
    (h' : ∀ s', (∀ k, s'.value k = (f k).or (s.value k)) → Writes (g a) s' b f') :
    Writes (m >>= g) s b fun k => (f' k).or (f k) := by
  obtain ⟨s', hm, hs'⟩ := h
  obtain ⟨s'', hg, hs''⟩ := h' s' hs'
  refine ⟨s'', ?_, fun k => ?_⟩
  · rw [run_bind, hm]
    exact hg
  · rw [hs'', hs', Option.or_assoc]

theorem Writes.congr {m : Client α} {a : α} {f f' : Key → Option Blob} (h : Writes m s a f)
    (hf : ∀ k, f k = f' k) : Writes m s a f' := by
  obtain ⟨s', hm, hs'⟩ := h
  exact ⟨s', hm, fun k => by rw [hs', hf]⟩

theorem writes_put (k : Key) (b : Blob) : Writes (put k.path b) s () (onKeys [k] b) := by
  refine ⟨s.put k.path b, rfl, fun k' => ?_⟩
  rw [Store.value_put, onKeys]
  by_cases h : k' = k
  · simp [h]
  · simp [h]

theorem writes_putRandomObject (k : Key) (size : Nat) :
    Writes (putRandomObject k.path size) s () (onKeys [k] (.random size)) := by
  have hsize : putRandomObject k.path size = put k.path (.random size) := by
    rw [putRandomObject, if_neg (by omega)]
    rfl
  rw [hsize]
  exact writes_put k _

/-- A loop that puts one object under many keys. -/
theorem writes_forM {l : List ι} {body : ι → Client Unit} {b : Blob} (keys : ι → List Key)
    (h : ∀ x ∈ l, ∀ s, Writes (body x) s () (onKeys (keys x) b)) (s : Store) :
    Writes (l.forM body) s () (onKeys (l.flatMap keys) b) := by
  induction l generalizing s with
  | nil => exact .pure ()
  | cons x l ih =>
    have hx := h x (List.mem_cons_self ..) s
    have hl := fun s' => ih (fun y hy => h y (List.mem_cons_of_mem _ hy)) s'
    refine (hx.bind fun s' _ => hl s').congr fun k => ?_
    simp only [onKeys, List.flatMap_cons, List.mem_append]
    by_cases hk : k ∈ keys x <;> by_cases hk' : k ∈ l.flatMap keys <;> simp [hk, hk']

/-! ### What `setup()` writes -/

structure Experiment where
  entryPartSize : Nat
  numEntryParts : Nat
  dataPartSize : Nat
  numDataParts : Nat
  clientId : Nat
  clientIp : List Char
deriving DecidableEq, Repr

namespace Experiment

def parameters (q : Experiment) : Parameters :=
  ⟨q.entryPartSize, q.numEntryParts, q.dataPartSize, q.numDataParts⟩

/-- A call of `setup()` with the store to itself. -/
def call (numCategories : ℕ+) (q : Experiment) : Client Unit :=
  setup numCategories q.parameters q.clientId q.clientIp

end Experiment

/-- The sizes and the numbers. -/
def Key.isConfig : Key → Bool
  | entryPartSize | numEntryParts | dataPartSize | numDataParts => true
  | _ => false

/-- Sizes, numbers and parts that belong together. -/
structure Block where
  sizeKey : Key
  numKey : Key
  /-- The parts with this number. -/
  parts : Nat → List Key

def entryBlock : Block := ⟨.entryPartSize, .numEntryParts, fun i => [.entryData i]⟩

def dataBlock (numCategories : ℕ+) : Block :=
  ⟨.dataPartSize, .numDataParts, fun i => (List.range numCategories).map fun c => .categoryData c i⟩

namespace Block

/-- How many parts a client puts, for the size and the number that are stored. -/
def toPut (old stored size num : Nat) : Nat := if old = size then num - stored else num

theorem toPut_le (old stored size num : Nat) : toPut old stored size num ≤ num := by
  unfold toPut
  split
  · exact Nat.sub_le _ _
  · exact Nat.le_refl _

/-- What a client writes to the configuration of a block. -/
def update (b : Block) (old stored size num : Nat) : Key → Option Blob :=
  if old = size then
    if stored < num then onKeys [b.numKey] (.int num) else fun _ => none
  else onKeys [b.sizeKey] (.int size)

theorem run_updateConfig (b : Block) {old stored : Nat} (hs : s.value b.sizeKey = some (.int old))
    (hn : s.value b.numKey = some (.int stored)) (size num : Nat) :
    (updateConfig b.sizeKey.path b.numKey.path size num).run act s =
      if old = size then
        if stored < num then .ok ((num : Int) - stored, s.put b.numKey.path (.int num)) else .ok (0, s)
      else .ok (num, s.put b.sizeKey.path (.int size)) := by
  rw [updateConfig, run_bind, run_getConfigInt hs]
  by_cases hsize : old = size
  · by_cases hlt : stored < num
    · simp [hsize, hlt, run_getConfigInt hn, putConfigInt, run_put]
    · simp [hsize, hlt, run_getConfigInt hn]
  · have hne : ¬ (old : Int) = size := by omega
    simp [hsize, hne, putConfigInt, run_put]

theorem writes_updateConfig (b : Block) {old stored : Nat} (hs : s.value b.sizeKey = some (.int old))
    (hn : s.value b.numKey = some (.int stored)) (size num : Nat) :
    Writes (updateConfig b.sizeKey.path b.numKey.path size num) s (toPut old stored size num : Nat)
      (b.update old stored size num) := by
  unfold Writes toPut update
  rw [b.run_updateConfig hs hn]
  by_cases hsize : old = size
  · by_cases hlt : stored < num
    · obtain ⟨s', hrun, hs'⟩ := writes_put (s := s) b.numKey (.int num)
      rw [if_pos hsize, if_pos hsize, if_pos hsize, if_pos hlt, if_pos hlt]
      have hcast : ((num - stored : Nat) : Int) = (num : Int) - stored := by omega
      obtain rfl := (Prod.mk.inj (Except.ok.inj hrun)).2
      rw [hcast]
      exact ⟨_, rfl, hs'⟩
    · rw [if_pos hsize, if_pos hsize, if_pos hsize, if_neg hlt, if_neg hlt,
        Nat.sub_eq_zero_of_le (Nat.le_of_not_lt hlt)]
      exact ⟨s, rfl, fun _ => rfl⟩
  · obtain ⟨s', hrun, hs'⟩ := writes_put (s := s) b.sizeKey (.int size)
    rw [if_neg hsize, if_neg hsize, if_neg hsize]
    obtain rfl := (Prod.mk.inj (Except.ok.inj hrun)).2
    exact ⟨_, rfl, hs'⟩

/-- The parts from number `first` on, up to `num`. -/
def partsFrom (b : Block) (first num : Nat) : List Key :=
  (List.range' first (num - first)).flatMap b.parts

theorem mem_partsFrom {b : Block} {first num : Nat} {k : Key} :
    k ∈ b.partsFrom first num ↔ ∃ i, (first ≤ i ∧ i < num) ∧ k ∈ b.parts i := by
  rw [partsFrom, List.mem_flatMap]
  apply exists_congr
  intro i
  have hrange : i ∈ List.range' first (num - first) ↔ first ≤ i ∧ i < num := by
    rw [List.mem_range'_1]
    omega
  rw [hrange]

end Block

theorem onKeys_congr {l l' : List Key} {b : Blob} (h : ∀ k, k ∈ l ↔ k ∈ l') (k : Key) :
    onKeys l b k = onKeys l' b k := by
  simp only [onKeys, h]

/-- The source's loop over part numbers. -/
theorem forM_intRange {first num : Nat} {m : Int} (hm : m = first) (body : Int → Client Unit) :
    (intRange m num).forM body = (List.range' first (num - first)).forM fun (i : Nat) => body i := by
  have hrange : intRange m num = (List.range' first (num - first)).map fun (i : Nat) => (i : Int) := by
    have hlen : ((num : Int) - first).toNat = num - first := by omega
    rw [hm, intRange, hlen, List.range'_eq_map_range, List.map_map]
    rfl
  rw [hrange]
  exact List.forM_map

namespace Experiment

theorem writes_putEntryData (q : Experiment) {n : Nat} (hn : n ≤ q.numEntryParts) :
    Writes (putEntryData q.parameters n) s ()
      (onKeys (entryBlock.partsFrom (q.numEntryParts - n) q.numEntryParts) (.random q.entryPartSize)) := by
  have hfirst : (q.numEntryParts : Int) - n = (q.numEntryParts - n : Nat) := by omega
  show Writes ((intRange ((q.numEntryParts : Int) - n) q.numEntryParts).forM _) s () _
  rw [forM_intRange hfirst]
  exact writes_forM entryBlock.parts (fun i _ s => writes_putRandomObject (.entryData i) _) s

theorem writes_putCategoriesData (numCategories : ℕ+) (q : Experiment) {n : Nat} (hn : n ≤ q.numDataParts) :
    Writes (putCategoriesData numCategories q.parameters n) s ()
      (onKeys ((dataBlock numCategories).partsFrom (q.numDataParts - n) q.numDataParts)
        (.random q.dataPartSize)) := by
  have hfirst : (q.numDataParts : Int) - n = (q.numDataParts - n : Nat) := by omega
  have hcategory : ∀ c ∈ List.range numCategories, ∀ s : Store,
      Writes ((intRange ((q.numDataParts : Int) - n) q.numDataParts).forM fun i =>
        putRandomObject (objDataCategoryPath ++ objPathSep ++ decimal c ++ objPathSep ++ integer i)
          q.dataPartSize) s ()
        (onKeys ((List.range' (q.numDataParts - n) (q.numDataParts - (q.numDataParts - n))).flatMap
          fun i => [.categoryData c i]) (.random q.dataPartSize)) := by
    intro c _ s
    rw [forM_intRange hfirst]
    exact writes_forM _ (fun i _ s => writes_putRandomObject (.categoryData c i) _) s
  refine (writes_forM _ hcategory s).congr (onKeys_congr fun k => ?_)
  have hrange : ∀ i, i ∈ List.range' (q.numDataParts - n) (q.numDataParts - (q.numDataParts - n)) ↔
      q.numDataParts - n ≤ i ∧ i < q.numDataParts := by
    intro i
    rw [List.mem_range'_1]
    omega
  simp only [Block.mem_partsFrom, dataBlock, List.mem_flatMap, List.mem_map, List.mem_singleton,
    List.mem_range, hrange]
  constructor
  · intro h
    obtain ⟨c, hc, i, hi, rfl⟩ := h
    exact ⟨i, hi, c, hc, rfl⟩
  · intro h
    obtain ⟨i, hi, c, hc, rfl⟩ := h
    exact ⟨c, hc, i, hi, rfl⟩

/-- What a call writes, after what it writes to the configuration. -/
def overlay (numCategories : ℕ+) (q : Experiment) (entryPartsToPut partsToPut : Nat)
    (f : Key → Option Blob) (k : Key) : Option Blob :=
  (onKeys ((dataBlock numCategories).partsFrom (q.numDataParts - partsToPut) q.numDataParts)
      (.random q.dataPartSize) k).or
    ((onKeys (entryBlock.partsFrom (q.numEntryParts - entryPartsToPut) q.numEntryParts)
        (.random q.entryPartSize) k).or
      ((onKeys [.clientData q.clientId] (.str q.clientIp) k).or (f k)))

theorem onKeys_partsFrom_none {b : Block} {k : Key} (h : ∀ i, k ∉ b.parts i) (first num : Nat)
    (blob : Blob) : onKeys (b.partsFrom first num) blob k = none := by
  rw [onKeys, if_neg]
  intro hk
  obtain ⟨i, _, hi⟩ := Block.mem_partsFrom.mp hk
  exact h i hi

theorem overlay_config {numCategories : ℕ+} (q : Experiment) {m n : Nat} {f : Key → Option Blob} {k : Key}
    (hk : k.isConfig = true) : q.overlay numCategories m n f k = f k := by
  have hentry : ∀ i, k ∉ entryBlock.parts i := by
    intro i h
    rw [List.mem_singleton.mp h] at hk
    cases hk
  have hdata : ∀ i, k ∉ (dataBlock numCategories).parts i := by
    intro i h
    obtain ⟨c, _, rfl⟩ := List.mem_map.mp h
    cases hk
  have hclient : onKeys [.clientData q.clientId] (.str q.clientIp) k = none := by
    refine if_neg fun h => ?_
    rw [List.mem_singleton.mp h] at hk
    cases hk
  rw [overlay, onKeys_partsFrom_none hentry, onKeys_partsFrom_none hdata, hclient]
  rfl

theorem overlay_entryData {numCategories : ℕ+} (q : Experiment) {m n : Nat} {f : Key → Option Blob}
    (i : Nat) : q.overlay numCategories m n f (.entryData i) =
      (onKeys (entryBlock.partsFrom (q.numEntryParts - m) q.numEntryParts) (.random q.entryPartSize)
        (.entryData i)).or (f (.entryData i)) := by
  have hdata : ∀ j, Key.entryData i ∉ (dataBlock numCategories).parts j := by simp [dataBlock]
  rw [overlay, onKeys_partsFrom_none hdata]
  rfl

theorem overlay_categoryData {numCategories : ℕ+} (q : Experiment) {m n : Nat} {f : Key → Option Blob}
    (c i : Nat) : q.overlay numCategories m n f (.categoryData c i) =
      (onKeys ((dataBlock numCategories).partsFrom (q.numDataParts - n) q.numDataParts)
        (.random q.dataPartSize) (.categoryData c i)).or (f (.categoryData c i)) := by
  have hentry : ∀ j, Key.categoryData c i ∉ entryBlock.parts j := by simp [entryBlock]
  rw [overlay, onKeys_partsFrom_none hentry]
  rfl

theorem writes_call (numCategories : ℕ+) (q : Experiment) {m n : Nat} {f : Key → Option Blob}
    (h : Writes (config q.parameters) s ((m : Int), (n : Int)) f) (hm : m ≤ q.numEntryParts)
    (hn : n ≤ q.numDataParts) :
    Writes (q.call numCategories) s () (q.overlay numCategories m n f) := by
  refine Writes.congr (h.bind fun s _ => (writes_put (.clientData q.clientId) _).bind fun s _ =>
    (q.writes_putEntryData hm).bind fun s _ => q.writes_putCategoriesData numCategories hn) fun k => ?_
  simp only [overlay, Option.or_assoc]

end Experiment

/-! ### Blocks before and after -/

namespace Block

/-- The block has `num` parts of this size. -/
structure Holds (b : Block) (s : Store) (size num : Nat) : Prop where
  storedSize : s.value b.sizeKey = some (.int size)
  storedNum : s.value b.numKey = some (.int num)
  parts : ∀ i < num, ∀ k ∈ b.parts i, ∃ blob, s.value k = some blob ∧ blob.size = size

/-- What a call makes of a block that has its size and its number stored. -/
structure Updated (b : Block) (size num old stored : Nat) (s s' : Store) : Prop where
  storedSize : s'.value b.sizeKey = some (.int size)
  storedNum : s'.value b.numKey = some (.int (if old = size then max stored num else stored : Nat))
  parts : ∀ i, ∀ k ∈ b.parts i, s'.value k =
    if num - toPut old stored size num ≤ i ∧ i < num then some (.random size) else s.value k

/-- The keys of a block differ. -/
structure Separate (b : Block) : Prop where
  config : b.sizeKey ≠ b.numKey
  parts : ∀ i j k, k ∈ b.parts i → k ∈ b.parts j → i = j

theorem onKeys_partsFrom {b : Block} (hb : b.Separate) {i : Nat} {k : Key} (hk : k ∈ b.parts i)
    (first num : Nat) (blob : Blob) :
    onKeys (b.partsFrom first num) blob k = if first ≤ i ∧ i < num then some blob else none := by
  have hmem : k ∈ b.partsFrom first num ↔ first ≤ i ∧ i < num := by
    rw [mem_partsFrom]
    constructor
    · intro h
      obtain ⟨j, hj, hkj⟩ := h
      rwa [hb.parts i j k hk hkj]
    · exact fun h => ⟨i, h, hk⟩
  simp only [onKeys, hmem]

theorem updated_of_overlay {b : Block} (hb : b.Separate) {size num old stored : Nat} {s s' : Store}
    (hs : s.value b.sizeKey = some (.int old)) (hn : s.value b.numKey = some (.int stored))
    (hconfig : ∀ k, k = b.sizeKey ∨ k = b.numKey →
      s'.value k = (b.update old stored size num k).or (s.value k))
    (hparts : ∀ i, ∀ k ∈ b.parts i, s'.value k =
      (onKeys (b.partsFrom (num - toPut old stored size num) num) (.random size) k).or (s.value k)) :
    b.Updated size num old stored s s' := by
  have hne := hb.config
  refine ⟨?_, ?_, fun i k hk => ?_⟩
  · rw [hconfig _ (.inl rfl), hs]
    by_cases hsize : old = size
    · by_cases hlt : stored < num <;> simp [update, onKeys, hsize, hlt, hne]
    · simp [update, onKeys, hsize]
  · rw [hconfig _ (.inr rfl), hn]
    by_cases hsize : old = size
    · by_cases hlt : stored < num
      · have hmax : max stored num = num := Nat.max_eq_right (Nat.le_of_lt hlt)
        simp [update, onKeys, hsize, hlt, hmax]
      · have hmax : max stored num = stored := Nat.max_eq_left (Nat.le_of_not_lt hlt)
        simp [update, hsize, hlt, hmax]
    · simp [update, onKeys, hsize, hne.symm]
  · rw [hparts i k hk, onKeys_partsFrom hb hk]
    split <;> rfl

theorem update_of_ne {b : Block} {k : Key} (hs : k ≠ b.sizeKey) (hn : k ≠ b.numKey)
    (old stored size num : Nat) : b.update old stored size num k = none := by
  unfold update
  split
  · split
    · simp [onKeys, hn]
    · rfl
  · simp [onKeys, hs]

end Block

theorem separate_entryBlock : entryBlock.Separate := by
  refine ⟨by decide, fun i j k hi hj => ?_⟩
  simp only [entryBlock, List.mem_singleton] at hi hj
  rw [hi] at hj
  exact Key.entryData.inj hj

theorem separate_dataBlock (numCategories : ℕ+) : (dataBlock numCategories).Separate := by
  refine ⟨Key.noConfusion, fun i j k hi hj => ?_⟩
  simp only [dataBlock, List.mem_map] at hi hj
  obtain ⟨c, _, rfl⟩ := hi
  obtain ⟨c', _, he⟩ := hj
  exact (Key.categoryData.inj he).2.symm

theorem listKeys_ne_nil {b : Blob} (h : s.value .entryPartSize = some b) :
    s.listKeys objConfigPath ≠ [] := by
  have hprefix : (objConfigPath ++ objPathSep) <+: Key.entryPartSize.path := List.prefix_append _ _
  exact List.ne_nil_of_mem (Store.mem_listKeys hprefix (by rw [h]; exact Option.some_ne_none _))

theorem writes_config (numCategories : ℕ+) {es en ds dn : Nat}
    (hes : s.value .entryPartSize = some (.int es)) (hen : s.value .numEntryParts = some (.int en))
    (hds : s.value .dataPartSize = some (.int ds)) (hdn : s.value .numDataParts = some (.int dn))
    (q : Experiment) :
    Writes (config q.parameters) s
      ((Block.toPut es en q.entryPartSize q.numEntryParts : Nat),
        (Block.toPut ds dn q.dataPartSize q.numDataParts : Nat))
      fun k => ((dataBlock numCategories).update ds dn q.dataPartSize q.numDataParts k).or
        (entryBlock.update es en q.entryPartSize q.numEntryParts k) := by
  have hkeys : (s.listKeys objConfigPath).isEmpty = false := by
    simpa using listKeys_ne_nil hes
  have hlist : Writes (listKeys objConfigPath) s (s.listKeys objConfigPath) fun _ => none :=
    ⟨s, rfl, fun _ => rfl⟩
  refine Writes.congr (hlist.bind fun s' hs' => ?_) fun k => Option.or_none
  rw [if_neg (by rw [hkeys]; decide)]
  simp only [Option.none_or] at hs'
  have hentry := entryBlock.writes_updateConfig (s := s') ((hs' _).trans hes) ((hs' _).trans hen)
    q.entryPartSize q.numEntryParts
  refine Writes.congr (hentry.bind fun t ht => ?_) fun k => rfl
  have hsame : ∀ k, k ≠ .entryPartSize → k ≠ .numEntryParts → t.value k = s.value k := by
    intro k hks hkn
    rw [ht, Block.update_of_ne hks hkn, Option.none_or, hs']
  have hdata := (dataBlock numCategories).writes_updateConfig (s := t)
    ((hsame _ Key.noConfusion Key.noConfusion).trans hds)
    ((hsame _ Key.noConfusion Key.noConfusion).trans hdn) q.dataPartSize q.numDataParts
  exact Writes.congr (hdata.bind fun _ _ => .pure _) fun k => Option.none_or

/-- A call when there is a configuration. -/
theorem call_updated (numCategories : ℕ+) {es en ds dn : Nat} (he : entryBlock.Holds s es en)
    (hd : (dataBlock numCategories).Holds s ds dn) (q : Experiment) :
    ∃ s', (q.call numCategories).run act s = .ok ((), s') ∧
      entryBlock.Updated q.entryPartSize q.numEntryParts es en s s' ∧
      (dataBlock numCategories).Updated q.dataPartSize q.numDataParts ds dn s s' := by
  have hm : Block.toPut es en q.entryPartSize q.numEntryParts ≤ q.numEntryParts := Block.toPut_le ..
  have hn : Block.toPut ds dn q.dataPartSize q.numDataParts ≤ q.numDataParts := Block.toPut_le ..
  obtain ⟨s', hrun, hs'⟩ := q.writes_call numCategories
    (writes_config numCategories he.storedSize he.storedNum hd.storedSize hd.storedNum q) hm hn
  refine ⟨s', hrun, ?_, ?_⟩
  · apply Block.updated_of_overlay separate_entryBlock he.storedSize he.storedNum
    · intro k hk
      have hother : k.isConfig = true ∧
          (dataBlock numCategories).update ds dn q.dataPartSize q.numDataParts k = none := by
        rcases hk with rfl | rfl
        · exact ⟨rfl, Block.update_of_ne Key.noConfusion Key.noConfusion ..⟩
        · exact ⟨rfl, Block.update_of_ne Key.noConfusion Key.noConfusion ..⟩
      rw [hs', q.overlay_config hother.1, hother.2, Option.none_or]
    · intro i k hk
      obtain rfl := List.mem_singleton.mp hk
      rw [hs', q.overlay_entryData, Block.update_of_ne Key.noConfusion Key.noConfusion,
        Block.update_of_ne Key.noConfusion Key.noConfusion, Option.none_or, Option.or_none]
  · apply Block.updated_of_overlay (separate_dataBlock numCategories) hd.storedSize hd.storedNum
    · intro k hk
      have hother : k.isConfig = true ∧
          entryBlock.update es en q.entryPartSize q.numEntryParts k = none := by
        rcases hk with rfl | rfl
        · exact ⟨rfl, Block.update_of_ne Key.noConfusion Key.noConfusion ..⟩
        · exact ⟨rfl, Block.update_of_ne Key.noConfusion Key.noConfusion ..⟩
      rw [hs', q.overlay_config hother.1, hother.2, Option.or_none]
    · intro i k hk
      obtain ⟨c, _, rfl⟩ := List.mem_map.mp hk
      rw [hs', q.overlay_categoryData, Block.update_of_ne Key.noConfusion Key.noConfusion,
        Block.update_of_ne Key.noConfusion Key.noConfusion, Option.none_or, Option.or_none]

/-- What a client writes to an empty configuration. -/
def Experiment.fresh (q : Experiment) (k : Key) : Option Blob :=
  (onKeys [.numDataParts] (.int q.numDataParts) k).or
    ((onKeys [.dataPartSize] (.int q.dataPartSize) k).or
      ((onKeys [.numEntryParts] (.int q.numEntryParts) k).or
        (onKeys [.entryPartSize] (.int q.entryPartSize) k)))

theorem writes_config_fresh (hkeys : (s.listKeys objConfigPath).isEmpty = true) (q : Experiment) :
    Writes (config q.parameters) s ((q.numEntryParts : Int), (q.numDataParts : Int)) q.fresh := by
  have hlist : Writes (listKeys objConfigPath) s (s.listKeys objConfigPath) fun _ => none :=
    ⟨s, rfl, fun _ => rfl⟩
  refine Writes.congr (hlist.bind fun s' _ => ?_) fun k => Option.or_none
  rw [if_pos hkeys]
  refine Writes.congr ((writes_put .entryPartSize _).bind fun _ _ =>
    (writes_put .numEntryParts _).bind fun _ _ => (writes_put .dataPartSize _).bind fun _ _ =>
      (writes_put .numDataParts _).bind fun _ _ => .pure _) fun k => ?_
  simp only [Experiment.fresh, Option.none_or, Option.or_assoc]
  rfl

/-- A call when there is no configuration. -/
theorem call_fresh (numCategories : ℕ+) (hkeys : (s.listKeys objConfigPath).isEmpty = true)
    (q : Experiment) :
    ∃ s', (q.call numCategories).run act s = .ok ((), s') ∧
      entryBlock.Holds s' q.entryPartSize q.numEntryParts ∧
      (dataBlock numCategories).Holds s' q.dataPartSize q.numDataParts := by
  obtain ⟨s', hrun, hs'⟩ := q.writes_call numCategories (writes_config_fresh hkeys q)
    (Nat.le_refl _) (Nat.le_refl _)
  refine ⟨s', hrun, ⟨?_, ?_, fun i hi k hk => ?_⟩, ⟨?_, ?_, fun i hi k hk => ?_⟩⟩
  · rw [hs', q.overlay_config rfl]
    rfl
  · rw [hs', q.overlay_config rfl]
    rfl
  · have hput := Block.onKeys_partsFrom separate_entryBlock hk
      (q.numEntryParts - q.numEntryParts) q.numEntryParts (.random q.entryPartSize)
    obtain rfl := List.mem_singleton.mp hk
    rw [if_pos ⟨by omega, hi⟩] at hput
    exact ⟨_, by rw [hs', q.overlay_entryData, hput]; rfl, rfl⟩
  · rw [hs', q.overlay_config rfl]
    rfl
  · rw [hs', q.overlay_config rfl]
    rfl
  · have hput := Block.onKeys_partsFrom (separate_dataBlock numCategories) hk
      (q.numDataParts - q.numDataParts) q.numDataParts (.random q.dataPartSize)
    obtain ⟨c, _, rfl⟩ := List.mem_map.mp hk
    rw [if_pos ⟨by omega, hi⟩] at hput
    exact ⟨_, by rw [hs', q.overlay_categoryData, hput]; rfl, rfl⟩

end CascadePlayground.Affinity
