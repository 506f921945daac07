import CascadePlayground.Affinity.Pipeline
import CascadePlayground.Processes
import CascadePlayground.RandomBuffer

/-! The pipeline at work.

Any number of clients set up and put their objects, with parameters of their own. An
object that is put into a pool of the graph (`dfgs.json`) starts an upcall of the stage
of that pool, on one node, and what the stage puts starts the next one. All of them call
the store at the same time, in any order.

The clients join a pipeline that has been configured (`HasConfig`): four ints are
there, whatever they are, and parts may be missing. -/
namespace CascadePlayground.Affinity
open Text Program

/-! ### Clients and upcalls -/

/-- A run of `pipeline_client`. -/
structure ClientConfig where
  id : Nat
  ip : List Char
  parameters : Parameters
  objectSize : Int

/-- What the pipeline is built and run with. Client numbers are node numbers, and the port of the
notification is an `int`; it need not be one that the client can listen at (`PortFits`). -/
structure Deployment where
  numCategories : ℕ+
  benchmarkTime : Int
  /-- `hash_blob` in the upcall for a key. Two objects of one size are not told apart by what is
  kept of them, but may hash to different values in different upcalls. -/
  hashBlob : List Char → Option Blob → UInt64
  /-- The node that runs the upcall for a key. -/
  nodeOf : List Char → Nat
  clients : List ClientConfig
  distinct : (clients.map ClientConfig.id).Nodup
  categories_lt : (numCategories : Nat) < 2 ^ 31
  objects_lt : benchmarkTime < 2 ^ 31
  ports_lt : ∀ c ∈ clients, clientReturnUdpPort + c.id < 2 ^ 31

/-- What a process was started for. -/
inductive Origin where
  | client (clientId : Nat)
  /-- An object that was put under this key. -/
  | upcall (key : List Char)
deriving DecidableEq, Repr

/-- A process of the pipeline; one of the return stage ends with the packet that it has sent. -/
abbrev Task := Process Origin Op Reply Failure (Option Notification)

abbrev System := Pool Origin Op Reply Failure Store (Option Notification)

namespace Deployment
variable (d : Deployment)

/-- The stage of the pool that the key is in. -/
def observer (key : List Char) (value : Blob) : Option (Client (Option Notification)) :=
  if (objEntryPath ++ objPathSep).isPrefixOf key then
    some do
      entryObserver (d.hashBlob key) d.numCategories key value
      pure none
  else if (objNewCategoryPath ++ objPathSep).isPrefixOf key then
    some do
      categoryObserver (d.hashBlob key) key value
      pure none
  else if (objOutputCategoryPath ++ objPathSep).isPrefixOf key then
    some do return some (← returnObserver (d.nodeOf key) key)
  else none

/-- The upcalls that a call starts. -/
def upcalls : Op → List Task
  | .put key value => (d.observer key value).toList.map fun m => ⟨.upcall key, m⟩
  | _ => []

/-- `main` of the client, up to the end of `benchmark()`. Its listener has bound its socket: where it
cannot, the client exits. -/
def main (c : ClientConfig) : Client (Option Notification) := do
  setup d.numCategories c.parameters c.id c.ip
  benchmark d.benchmarkTime c.objectSize c.id
  pure none

def start (s₀ : Store) : System := ⟨s₀, d.clients.map fun c => ⟨.client c.id, d.main c⟩⟩

def Step : System → System → Prop := Pool.Step act d.upcalls

def Reached (s₀ : Store) : System → Prop := Relation.ReflTransGen d.Step (d.start s₀)

end Deployment

/-- The ints of the configuration. -/
def configKeys : List Key := [.entryPartSize, .numEntryParts, .dataPartSize, .numDataParts]

def HasConfig (s : Store) : Prop := ∀ k ∈ configKeys, ∃ v, s.value k = some (.int v)

variable {d : Deployment}

/-! ### What a put starts -/

theorem upcalls_object (clientId objectId : Nat) (value : Blob) :
    d.upcalls (.put (Key.object clientId objectId).path value) =
      [⟨.upcall (Key.object clientId objectId).path, do
        forwardObject (d.hashBlob (Key.object clientId objectId).path) d.numCategories clientId
          objectId value
        pure none⟩] := by
  rw [← entryObserver_object _ _ (Nat.le_of_lt d.categories_lt)]
  rfl

theorem upcalls_newCategory (k clientId objectId : Nat) (value : Blob) :
    d.upcalls (.put (Key.newCategory k clientId objectId).path value) =
      [⟨.upcall (Key.newCategory k clientId objectId).path, do
        forwardResult (d.hashBlob (Key.newCategory k clientId objectId).path) k clientId objectId
          value
        pure none⟩] := by
  rw [← categoryObserver_newCategory]
  rfl

theorem upcalls_outputCategory (k clientId objectId : Nat) (value : Blob) :
    d.upcalls (.put (Key.outputCategory k clientId objectId).path value) =
      [⟨.upcall (Key.outputCategory k clientId objectId).path, do
        return some (← returnObserver (d.nodeOf (Key.outputCategory k clientId objectId).path)
          (Key.outputCategory k clientId objectId).path)⟩] := rfl

/-- The key of an entry part, whatever its number. -/
def entryDataKey (i : List Char) : List Char := objEntryPath ++ objPathSep ++ "data_".toList ++ i

/-- The key of a part of a category. -/
def categoryDataKey (rest : List Char) : List Char := objDataCategoryPath ++ objPathSep ++ rest

/-- An entry part is dropped at once. -/
theorem upcalls_entryDataKey (i : List Char) (value : Blob) :
    d.upcalls (.put (entryDataKey i) value) = [⟨.upcall (entryDataKey i), .done none⟩] := by
  have hdata : find (entryDataKey i) (objEntryPath ++ objPathSep ++ "data".toList) = some 0 := by
    apply find_eq_zero.mpr
    have hkey : entryDataKey i = objEntryPath ++ objPathSep ++ "data".toList ++ ('_' :: i) := by
      simp [entryDataKey]
    rw [hkey]
    exact List.prefix_append _ _
  have hdrop : entryObserver (d.hashBlob (entryDataKey i)) d.numCategories (entryDataKey i) value =
      pure () := if_pos hdata
  show [(⟨.upcall (entryDataKey i), entryObserver _ _ _ value >>= fun _ => pure none⟩ : Task)] = _
  rw [hdrop]
  rfl

theorem upcalls_config {k : Key} (h : k ∈ configKeys) (value : Blob) :
    d.upcalls (.put k.path value) = [] := by
  simp only [configKeys, List.mem_cons, List.not_mem_nil, or_false] at h
  rcases h with rfl | rfl | rfl | rfl <;> rfl

theorem upcalls_clientData (clientId : Nat) (value : Blob) :
    d.upcalls (.put (Key.clientData clientId).path value) = [] := rfl

/-! ### What the store keeps -/

/-- What is put under a key. -/
def expected (d : Deployment) : Key → Blob → Prop
  | .entryPartSize, value | .numEntryParts, value | .dataPartSize, value | .numDataParts, value =>
    ∃ v, value = .int v
  | .clientData clientId, value => ∃ c ∈ d.clients, c.id = clientId ∧ value = .str c.ip
  | .outputCategory .., value => ∃ v, value = .hash v
  | _, _ => True

def Shows (d : Deployment) (k : Key) (s : Store) : Prop := ∃ value, s.value k = some value ∧ expected d k value

/-- A put of what belongs under the key. -/
def Proper (d : Deployment) : Op → Prop
  | .put key value => ∀ k : Key, key = k.path → expected d k value
  | _ => True

/-- What a process has found is there for good. -/
def Keeping (d : Deployment) (s s' : Store) : Prop := ∀ k, Shows d k s → Shows d k s'

theorem value_put_raw (s : Store) (key : List Char) (value : Blob) (k : Key) :
    (s.put key value).value k = if k.path = key then some value else s.value k := by
  rw [Store.value, Store.put, Store.get, List.lookup_cons]
  by_cases h : k.path = key
  · rw [if_pos h, beq_iff_eq.mpr h]
  · rw [if_neg h, beq_false_of_ne h]
    rfl

theorem keeping_act {op : Op} (h : Proper d op) (s : Store) : Keeping d s (act op s).2 := by
  intro k hk
  cases op with
  | listKeys pool => exact hk
  | get key => exact hk
  | put key value =>
    show Shows d k (s.put key value)
    rw [Shows, value_put_raw]
    by_cases hkey : k.path = key
    · rw [if_pos hkey]
      exact ⟨value, rfl, h k hkey.symm⟩
    · rw [if_neg hkey]
      exact hk

theorem shows_put {op : Op} {k : Key} {value : Blob} (hop : op = .put k.path value)
    (h : expected d k value) (s : Store) : Shows d k (act op s).2 := by
  subst hop
  exact ⟨value, by rw [act, Store.value_put, if_pos rfl], h⟩

theorem HasConfig.shows {s : Store} (h : HasConfig s) {k : Key} (hk : k ∈ configKeys) :
    Shows d k s := by
  obtain ⟨v, hv⟩ := h k hk
  refine ⟨.int v, hv, ?_⟩
  simp only [configKeys, List.mem_cons, List.not_mem_nil, or_false] at hk
  rcases hk with rfl | rfl | rfl | rfl <;> exact ⟨v, rfl⟩

theorem hasConfig_of_shows {s : Store} (h : ∀ k ∈ configKeys, Shows d k s) : HasConfig s := by
  intro k hk
  obtain ⟨value, hvalue, hexpected⟩ := h k hk
  simp only [configKeys, List.mem_cons, List.not_mem_nil, or_false] at hk
  rcases hk with rfl | rfl | rfl | rfl
  all_goals
    obtain ⟨v, rfl⟩ := hexpected
    exact ⟨v, hvalue⟩

theorem HasConfig.keeping {s s' : Store} (h : HasConfig s) (hs : Keeping d s s') : HasConfig s' :=
  hasConfig_of_shows (d := d) fun k hk => hs k (h.shows hk)

/-- The address of a client is there. -/
def Addressed (d : Deployment) (c : ClientConfig) (s : Store) : Prop := Shows d (.clientData c.id) s

theorem eq_of_id_eq {c c' : ClientConfig} (hc : c ∈ d.clients) (hc' : c' ∈ d.clients)
    (h : c.id = c'.id) : c = c' := List.inj_on_of_nodup_map d.distinct hc hc' h

theorem Addressed.value {c : ClientConfig} (hc : c ∈ d.clients) {s : Store} (h : Addressed d c s) :
    s.value (.clientData c.id) = some (.str c.ip) := by
  obtain ⟨value, hvalue, c', hc', hid, rfl⟩ := h
  rw [hvalue, eq_of_id_eq hc' hc hid]

/-! ### Replies -/

/-- The replies of a store that has been configured. -/
def ConfigReply : (op : Op) → Reply op → Prop
  | .get key, value => ∀ k ∈ configKeys, key = k.path → ∃ v, value = some (.int v)
  | _, _ => True

/-- The replies of a store that has the address of the client. -/
def AddressReply (c : ClientConfig) : (op : Op) → Reply op → Prop
  | .get key, value => key = (Key.clientData c.id).path → value = some (.str c.ip)
  | _, _ => True

theorem HasConfig.reply {s : Store} (h : HasConfig s) (op : Op) : ConfigReply op (act op s).1 := by
  cases op with
  | get key =>
    rintro k hk rfl
    exact h k hk
  | _ => exact True.intro

theorem Addressed.reply {c : ClientConfig} (hc : c ∈ d.clients) {s : Store} (h : Addressed d c s)
    (op : Op) : AddressReply c op (act op s).1 := by
  cases op with
  | get key =>
    rintro rfl
    exact h.value hc
  | _ => exact True.intro

/-! ### What a client does -/

/-- The calls of `setup()`, but for the put of the address. -/
def SetupOp : Op → Prop
  | .put key value => (∃ k ∈ configKeys, ∃ v, key = k.path ∧ value = .int v) ∨
      (∃ i, key = entryDataKey i) ∨ ∃ rest, key = categoryDataKey rest
  | _ => True

/-- `random_buffer` can be asked for a buffer of this size (`Fillable.fills`). -/
def Fillable (size : Int) : Prop := 0 ≤ size ∧ size < 2147483600

instance (size : Int) : Decidable (Fillable size) := instDecidableAnd

theorem Fillable.fills {size : Int} (h : Fillable size) (rng : Nat → Nat) :
    ∃ s, StateTransition.Reaches (RandomBuffer.next size rng) RandomBuffer.start s ∧
      RandomBuffer.next size rng s = none ∧ RandomBuffer.Fills size s :=
  RandomBuffer.exists_fills h.1 h.2 rng

/-- All the objects that the client puts can be filled. -/
def ClientConfig.Sized (c : ClientConfig) : Prop :=
  Fillable c.parameters.entryPartSize ∧ Fillable c.parameters.dataPartSize ∧ Fillable c.objectSize

instance (c : ClientConfig) : Decidable c.Sized := instDecidableAnd

/-- How a client can fail. -/
def Failing (c : ClientConfig) (e : Failure) : Prop := e = .badArrayLength ∧ ¬ c.Sized

section Setup
variable {c : ClientConfig} {F : Failure → Prop}

theorem obeys_getConfigInt {P : Op → Prop} {k : Key} (hk : k ∈ configKeys) (hP : P (.get k.path)) :
    (getConfigInt k.path).Obeys P ConfigReply F fun _ => True := by
  refine ⟨hP, fun r hr => ?_⟩
  obtain ⟨v, rfl⟩ := hr k hk rfl
  exact True.intro

theorem obeys_putConfigInt {k : Key} (hk : k ∈ configKeys) (v : Int) :
    (putConfigInt k.path v).Obeys SetupOp ConfigReply F fun _ => True :=
  Obeys.perform (.inl ⟨k, hk, v, rfl, rfl⟩) fun _ _ => True.intro

theorem obeys_updateConfig {sizeKey numKey : Key} (hs : sizeKey ∈ configKeys) (hn : numKey ∈ configKeys)
    (size num : Int) :
    (updateConfig sizeKey.path numKey.path size num).Obeys SetupOp ConfigReply F fun _ => True := by
  refine (obeys_getConfigInt hs True.intro).bind fun stored _ => ?_
  split
  · refine (obeys_getConfigInt hn True.intro).bind fun storedNum _ => ?_
    split
    · exact (obeys_putConfigInt hn _).bind fun _ _ => True.intro
    · exact True.intro
  · exact (obeys_putConfigInt hs _).bind fun _ _ => True.intro

theorem obeys_config (p : Parameters) : (config p).Obeys SetupOp ConfigReply F fun _ => True := by
  refine (Obeys.perform (Q := fun _ => True) True.intro fun _ _ => True.intro).bind fun keys _ => ?_
  split
  · refine (obeys_putConfigInt (k := .entryPartSize) (by decide) _).bind fun _ _ => ?_
    refine (obeys_putConfigInt (k := .numEntryParts) (by decide) _).bind fun _ _ => ?_
    refine (obeys_putConfigInt (k := .dataPartSize) (by decide) _).bind fun _ _ => ?_
    exact (obeys_putConfigInt (k := .numDataParts) (by decide) _).bind fun _ _ => True.intro
  · have hentry : Key.entryPartSize ∈ configKeys ∧ Key.numEntryParts ∈ configKeys := by decide
    have hdata : Key.dataPartSize ∈ configKeys ∧ Key.numDataParts ∈ configKeys := by decide
    refine (obeys_updateConfig hentry.1 hentry.2 _ _).bind fun _ _ => ?_
    exact (obeys_updateConfig hdata.1 hdata.2 _ _).bind fun _ _ => True.intro

theorem obeys_putRandomObject {key : List Char} {size : Int}
    (hkey : (∃ i, key = entryDataKey i) ∨ ∃ rest, key = categoryDataKey rest)
    (hsize : size < 0 → F .badArrayLength) :
    (putRandomObject key size).Obeys SetupOp ConfigReply F fun _ => True := by
  unfold putRandomObject
  split
  · next h => exact hsize h
  · exact Obeys.perform (.inr hkey) fun _ _ => True.intro

/-- `setup()` after the put of the address. -/
def putParts (numCategories : ℕ+) (p : Parameters) (toPut : Int × Int) : Client Unit := do
  putEntryData p toPut.1
  putCategoriesData numCategories p toPut.2

theorem obeys_putParts (numCategories : ℕ+) (c : ClientConfig) (toPut : Int × Int) :
    (putParts numCategories c.parameters toPut).Obeys SetupOp ConfigReply (Failing c) fun _ => True := by
  refine Obeys.bind (R := fun _ => True) (Obeys.forM fun i _ => ?_) fun _ _ => ?_
  · exact obeys_putRandomObject (.inl ⟨integer i, rfl⟩) fun h => ⟨rfl, fun hs => absurd hs.1.1 (by omega)⟩
  · refine Obeys.forM fun k _ => Obeys.forM fun i _ => ?_
    refine obeys_putRandomObject (.inr ⟨decimal k ++ objPathSep ++ integer i, ?_⟩)
      fun h => ⟨rfl, fun hs => absurd hs.2.1.1 (by omega)⟩
    simp only [categoryDataKey, List.append_assoc]

end Setup

/-- The numbers of a client's objects. -/
def Deployment.objectIds (d : Deployment) : List Nat := List.range d.benchmarkTime.toNat

/-- `benchmark()` from some object on. -/
def ClientConfig.putObjects (c : ClientConfig) (l : List Nat) : Client (Option Notification) := do
  l.forM fun o => putRandomObject (Key.object c.id o).path c.objectSize
  pure none

/-- `main` after the look at the configuration. -/
def Deployment.afterConfig (d : Deployment) (c : ClientConfig) (toPut : Int × Int) :
    Client (Option Notification) := do
  put (Key.clientData c.id).path (.str c.ip)
  putParts d.numCategories c.parameters toPut
  c.putObjects d.objectIds

theorem benchmark_objectIds (d : Deployment) (objectSize : Int) (clientId : Nat) :
    benchmark d.benchmarkTime objectSize clientId =
      d.objectIds.forM fun o => putRandomObject (Key.object clientId o).path objectSize := by
  have hmap : ∀ f : Int → Client Unit, (intRange 0 d.benchmarkTime).forM f =
      (List.range (d.benchmarkTime - 0).toNat).forM fun (j : Nat) => f (0 + j) := fun f => List.forM_map
  rw [benchmark_eq, hmap, Int.sub_zero]
  simp only [Int.zero_add, Int.toNat_natCast]
  rfl

theorem main_eq (d : Deployment) (c : ClientConfig) :
    d.main c = config c.parameters >>= d.afterConfig c := by
  simp only [Deployment.main, setup, benchmark_objectIds, bind_assoc]
  refine bind_congr fun toPut => ?_
  simp only [Deployment.afterConfig, putParts, ClientConfig.putObjects, bind_assoc]
  rfl

/-! ### Where a client is -/

/-- What is left of a client's program, and which objects it has yet to put. -/
inductive ClientAt (d : Deployment) (c : ClientConfig) (s : Store) :
    List Nat → Client (Option Notification) → Prop where
  | config {m : Client (Int × Int)} (hm : m.Obeys SetupOp ConfigReply (Failing c) fun _ => True) :
      ClientAt d c s d.objectIds (m >>= d.afterConfig c)
  | parts {m : Client Unit} (ha : Addressed d c s)
      (hm : m.Obeys SetupOp ConfigReply (Failing c) fun _ => True) :
      ClientAt d c s d.objectIds (m >>= fun _ => c.putObjects d.objectIds)
  | objects {l : List Nat} (ha : Addressed d c s) (hl : ∀ o ∈ l, (o : Int) < d.benchmarkTime) :
      ClientAt d c s l (c.putObjects l)
  | failed {l : List Nat} {e : Failure} (he : Failing c e) : ClientAt d c s l (.fail e)

variable {c : ClientConfig} {s s' : Store} {l : List Nat}

theorem clientAt_main (d : Deployment) (c : ClientConfig) (s : Store) :
    ClientAt d c s d.objectIds (d.main c) := by
  rw [main_eq]
  exact .config (obeys_config c.parameters)

theorem ClientAt.keeping {m : Client (Option Notification)} (h : ClientAt d c s l m)
    (hs : Keeping d s s') : ClientAt d c s' l m := by
  cases h with
  | config hm => exact .config hm
  | parts ha hm => exact .parts (hs _ ha) hm
  | objects ha hl => exact .objects (hs _ ha) hl
  | failed he => exact .failed he

theorem objectIds_lt {o : Nat} (h : o ∈ d.objectIds) : (o : Int) < d.benchmarkTime := by
  have := List.mem_range.mp h
  omega

theorem putObjects_cons (c : ClientConfig) (o : Nat) (l : List Nat) :
    c.putObjects (o :: l) =
      if c.objectSize < 0 then .fail .badArrayLength
      else .call (.put (Key.object c.id o).path (.random c.objectSize.toNat)) fun _ => c.putObjects l := by
  have hcons : c.putObjects (o :: l) =
      putRandomObject (Key.object c.id o).path c.objectSize >>= fun _ => c.putObjects l :=
    bind_assoc ..
  rw [hcons, putRandomObject]
  split <;> rfl

theorem proper_path {k : Key} {value : Blob} (h : expected d k value) :
    Proper d (.put k.path value) := by
  intro k' hk'
  rw [← Key.path_injective hk']
  exact h

/-- The next call of `benchmark()`. -/
theorem putObjects_call (ha : Addressed d c s) (hl : ∀ o ∈ l, (o : Int) < d.benchmarkTime) {op : Op}
    {k : Reply op → Client (Option Notification)} (hq : c.putObjects l = .call op k) :
    ∃ o l' value, l = o :: l' ∧ op = .put (Key.object c.id o).path value ∧
      (o : Int) < d.benchmarkTime ∧ ClientAt d c (act op s).2 l' (k (act op s).1) := by
  cases l with
  | nil => cases hq
  | cons o l' =>
    rw [putObjects_cons] at hq
    split at hq
    · cases hq
    · cases hq
      refine ⟨o, l', _, rfl, rfl, hl o (List.mem_cons_self ..), .objects ?_ fun o' ho' => ?_⟩
      · exact keeping_act (proper_path (k := .object c.id o) True.intro) s _ ha
      · exact hl o' (List.mem_cons_of_mem _ ho')

theorem setupOp_proper {op : Op} (h : SetupOp op) : Proper d op := by
  cases op with
  | put key value =>
    intro k hk
    have hfamily := family_path k
    rw [← hk] at hfamily
    rcases h with ⟨k', hk', v, rfl, rfl⟩ | ⟨i, rfl⟩ | ⟨rest, rfl⟩
    · refine proper_path ?_ k hk
      simp only [configKeys, List.mem_cons, List.not_mem_nil, or_false] at hk'
      rcases hk' with rfl | rfl | rfl | rfl <;> exact ⟨v, rfl⟩
    · have hentry : Affinity.family (entryDataKey i) = .entryData := rfl
      rw [hentry] at hfamily
      cases k <;> cases hfamily
      exact True.intro
    · have hcategory : Affinity.family (categoryDataKey rest) = .categoryData := rfl
      rw [hcategory] at hfamily
      cases k <;> cases hfamily
      exact True.intro
  | _ => exact True.intro

/-- A call of the client belongs to its setup, or puts the next of its objects. -/
theorem ClientAt.call {op : Op} {k : Reply op → Client (Option Notification)} (hc : c ∈ d.clients)
    (h : ClientAt d c s l (.call op k)) (hs : HasConfig s) :
    ((SetupOp op ∨ op = .put (Key.clientData c.id).path (.str c.ip)) ∧
        ClientAt d c (act op s).2 l (k (act op s).1)) ∨
      Addressed d c s ∧ ∃ o l' value, l = o :: l' ∧ op = .put (Key.object c.id o).path value ∧
        (o : Int) < d.benchmarkTime ∧ ClientAt d c (act op s).2 l' (k (act op s).1) := by
  generalize hq : (.call op k : Client (Option Notification)) = q at h
  cases h with
  | @config m hm =>
    cases m with
    | done toPut =>
      cases hq
      have hput : Addressed d c (act (.put (Key.clientData c.id).path (.str c.ip)) s).2 :=
        shows_put (k := .clientData c.id) rfl ⟨c, hc, rfl, rfl⟩ s
      exact .inl ⟨.inr rfl, .parts hput (obeys_putParts d.numCategories c toPut)⟩
    | call op' k' =>
      cases hq
      exact .inl ⟨.inl hm.1, .config (hm.2 _ (hs.reply op))⟩
    | fail e => cases hq
  | @parts m ha hm =>
    cases m with
    | done a => exact .inr ⟨ha, putObjects_call ha (fun o ho => objectIds_lt ho) hq.symm⟩
    | call op' k' =>
      cases hq
      have hkeep := keeping_act (d := d) (setupOp_proper hm.1) s
      exact .inl ⟨.inl hm.1, .parts (hkeep _ ha) (hm.2 _ (hs.reply op))⟩
    | fail e => cases hq
  | objects ha hl => exact .inr ⟨ha, putObjects_call ha hl hq.symm⟩
  | failed he => cases hq

/-! ### What a stage does -/

/-- The calls of a stage before its put. -/
def Reads : Op → Prop
  | .put _ _ => False
  | _ => True

theorem Reads.proper {op : Op} (h : Reads op) : Proper d op := by
  cases op with
  | put key value => cases h
  | _ => exact True.intro

theorem Reads.upcalls {op : Op} (h : Reads op) : d.upcalls op = [] := by
  cases op with
  | put key value => cases h
  | _ => rfl

/-- The port that a packet for the client is sent to. -/
def returnPort (clientId : Nat) : Nat := (clientReturnUdpPort + clientId) % 2 ^ 16

/-- It is the one that the client has bound. -/
theorem returnPort_of_fits {clientId : Nat} (h : PortFits clientId) (anyPort : ℕ+) :
    returnPort clientId = listenPort anyPort clientId :=
  (listenPort_of_fits h anyPort).symm

/-- The packet for an object of the client, once its category is known. -/
def Deployment.notification (d : Deployment) (c : ClientConfig) (objectId k : Nat) : Notification :=
  ⟨c.ip, returnPort c.id, objectId, k, toInt (d.nodeOf (Key.outputCategory k c.id objectId).path)⟩

/-- An entry stage puts the object into one category. -/
def EntryAt (d : Deployment) (c : ClientConfig) (o : Nat) (m : Client (Option Notification)) : Prop :=
  m.EndsWith Reads (fun op => ∃ k < (d.numCategories : Nat), ∃ value,
    op = .put (Key.newCategory k c.id o).path value) ConfigReply (fun _ => False) (· = none)

/-- A category stage puts the result. -/
def CategoryAt (c : ClientConfig) (o k : Nat) (m : Client (Option Notification)) : Prop :=
  m.EndsWith Reads (fun op => ∃ v, op = .put (Key.outputCategory k c.id o).path (.hash v)) ConfigReply
    (fun _ => False) (· = none)

/-- A return stage sends the packet. -/
def ReturnAt (d : Deployment) (c : ClientConfig) (o k : Nat) (m : Client (Option Notification)) : Prop :=
  m.Obeys Reads (AddressReply c) (fun _ => False) (· = some (d.notification c o k))

theorem obeys_getConfigStr {F : Failure → Prop} (c : ClientConfig) :
    (getConfigStr (Key.clientData c.id).path).Obeys Reads (AddressReply c) F (· = c.ip) := by
  refine ⟨True.intro, fun r hr => ?_⟩
  have haddress : r = some (.str c.ip) := hr rfl
  rw [haddress]
  rfl

theorem obeys_getParts {F : Failure → Prop} (keyOf : Int → List Char) (numParts : Int) :
    ((intRange 0 numParts).mapM fun i => get (keyOf i)).Obeys Reads ConfigReply F fun _ => True :=
  Obeys.mapM fun _ _ => Obeys.perform True.intro fun _ _ => True.intro

theorem entryAt_forwardObject (hashBlob : Option Blob → UInt64) (c : ClientConfig) (o : Nat) (value : Blob) :
    EntryAt d c o (forwardObject hashBlob d.numCategories c.id o value >>= fun _ => pure none) := by
  refine EndsWith.bind_pure (R := fun _ => True) ?_ fun _ _ => rfl
  refine EndsWith.bind (obeys_getConfigInt (k := .numEntryParts) (by decide) True.intro) fun numParts _ => ?_
  refine EndsWith.bind (obeys_getParts _ numParts) fun parts _ => ?_
  exact EndsWith.perform ⟨_, Nat.mod_lt _ d.numCategories.2, value, rfl⟩ fun _ => True.intro

theorem categoryAt_forwardResult (hashBlob : Option Blob → UInt64) (c : ClientConfig) (o k : Nat)
    (value : Blob) :
    CategoryAt c o k (forwardResult hashBlob k c.id o value >>= fun _ => pure none) := by
  refine EndsWith.bind_pure (R := fun _ => True) ?_ fun _ _ => rfl
  refine EndsWith.bind (obeys_getConfigInt (k := .numDataParts) (by decide) True.intro) fun numParts _ => ?_
  refine EndsWith.bind (obeys_getParts _ numParts) fun parts _ => ?_
  exact EndsWith.perform ⟨_, rfl⟩ fun _ => True.intro

theorem returnAt_returnObserver (hc : c ∈ d.clients) {o k : Nat} (ho : (o : Int) < d.benchmarkTime)
    (hk : k < (d.numCategories : Nat)) :
    ReturnAt d c o k do
      return some (← returnObserver (d.nodeOf (Key.outputCategory k c.id o).path)
        (Key.outputCategory k c.id o).path) := by
  have hport := d.ports_lt c hc
  have hid : c.id < 2 ^ 31 := by omega
  have hobject : o < 2 ^ 31 := by have := d.objects_lt; omega
  rw [returnObserver_outputCategory _ (Nat.lt_trans hk d.categories_lt) hid hobject]
  refine Obeys.bind (R := (· = d.notification c o k)) ?_ fun n hn => Obeys.pure (congrArg some hn)
  refine (obeys_getConfigStr c).bind fun ip hip => ?_
  rw [hip, notifyClient_of_lt hport]
  exact Obeys.pure rfl

section Calls
variable {P : Op → Prop}

theorem calls_lift {α : Type} (r : Except Text.Exception α) : (lift r).Calls P := by
  cases r <;> exact True.intro

theorem calls_get {key : List Char} (h : P (.get key)) : (get key).Calls P :=
  Obeys.perform h fun _ _ => True.intro

theorem calls_getConfigInt {key : List Char} (h : P (.get key)) : (getConfigInt key).Calls P := by
  refine (calls_get h).bind fun r _ => ?_
  split <;> exact True.intro

theorem calls_getConfigStr {key : List Char} (h : P (.get key)) : (getConfigStr key).Calls P := by
  refine (calls_get h).bind fun r _ => ?_
  split <;> exact True.intro

theorem calls_getParts {keyOf : Int → List Char} (h : ∀ i, P (.get (keyOf i))) (numParts : Int) :
    ((intRange 0 numParts).mapM fun i => get (keyOf i)).Calls P :=
  Obeys.mapM fun i _ => calls_get (h i)

theorem calls_notifyClient (ipAddress : List Char) (objectId category nodeId clientId : Int) :
    (notifyClient ipAddress objectId category nodeId clientId).Calls P := by
  unfold notifyClient
  dsimp only
  split <;> exact True.intro

end Calls

/-! ### Where a task is -/

/-- What is left of a task. -/
inductive TaskAt (d : Deployment) (s : Store) : Task → Prop where
  | client {c : ClientConfig} {l : List Nat} {m : Client (Option Notification)} (hc : c ∈ d.clients)
      (hm : ClientAt d c s l m) : TaskAt d s ⟨.client c.id, m⟩
  /-- An entry part. -/
  | dropped (i : List Char) : TaskAt d s ⟨.upcall (entryDataKey i), .done none⟩
  | entry {c : ClientConfig} {o : Nat} {m : Client (Option Notification)} (hc : c ∈ d.clients)
      (ho : (o : Int) < d.benchmarkTime) (ha : Addressed d c s) (hm : EntryAt d c o m) :
      TaskAt d s ⟨.upcall (Key.object c.id o).path, m⟩
  | entryDone {c : ClientConfig} {o : Nat} (hc : c ∈ d.clients) (ho : (o : Int) < d.benchmarkTime) :
      TaskAt d s ⟨.upcall (Key.object c.id o).path, .done none⟩
  | category {c : ClientConfig} {o k : Nat} {m : Client (Option Notification)} (hc : c ∈ d.clients)
      (ho : (o : Int) < d.benchmarkTime) (hk : k < (d.numCategories : Nat)) (ha : Addressed d c s)
      (hm : CategoryAt c o k m) : TaskAt d s ⟨.upcall (Key.newCategory k c.id o).path, m⟩
  | categoryDone {c : ClientConfig} {o k : Nat} (hc : c ∈ d.clients) (ho : (o : Int) < d.benchmarkTime)
      (hk : k < (d.numCategories : Nat)) :
      TaskAt d s ⟨.upcall (Key.newCategory k c.id o).path, .done none⟩
  | returning {c : ClientConfig} {o k : Nat} {m : Client (Option Notification)} (hc : c ∈ d.clients)
      (ho : (o : Int) < d.benchmarkTime) (hk : k < (d.numCategories : Nat)) (ha : Addressed d c s)
      (hs : Shows d (.outputCategory k c.id o) s) (hm : ReturnAt d c o k m) :
      TaskAt d s ⟨.upcall (Key.outputCategory k c.id o).path, m⟩

theorem TaskAt.keeping {x : Task} (h : TaskAt d s x) (hs : Keeping d s s') : TaskAt d s' x := by
  cases h with
  | client hc hm => exact .client hc (hm.keeping hs)
  | dropped i => exact .dropped i
  | entry hc ho ha hm => exact .entry hc ho (hs _ ha) hm
  | entryDone hc ho => exact .entryDone hc ho
  | category hc ho hk ha hm => exact .category hc ho hk (hs _ ha) hm
  | categoryDone hc ho hk => exact .categoryDone hc ho hk
  | returning hc ho hk ha hshow hm => exact .returning hc ho hk (hs _ ha) (hs _ hshow) hm

/-- What a call can do: what is left of the task that makes it, and the tasks it starts. -/
inductive Effect (d : Deployment) : Origin → Client (Option Notification) → List Task → Prop where
  | setup (clientId : Nat) (m : Client (Option Notification)) {ys : List Task}
      (h : ∀ y ∈ ys, ∃ i, y.tag = .upcall (entryDataKey i)) : Effect d (.client clientId) m ys
  | object (clientId o : Nat) (m : Client (Option Notification)) {m' : Client (Option Notification)}
      (hm' : m'.isDone = false) :
      Effect d (.client clientId) m [⟨.upcall (Key.object clientId o).path, m'⟩]
  | read (key : List Char) {m : Client (Option Notification)} (hm : m.isDone = false) :
      Effect d (.upcall key) m []
  | newCategory (clientId o : Nat) {k : Nat} (hk : k < (d.numCategories : Nat))
      {m' : Client (Option Notification)} (hm' : m'.isDone = false) :
      Effect d (.upcall (Key.object clientId o).path) (.done none)
        [⟨.upcall (Key.newCategory k clientId o).path, m'⟩]
  | outputCategory (clientId o : Nat) {k : Nat} (hk : k < (d.numCategories : Nat))
      (m' : Client (Option Notification)) :
      Effect d (.upcall (Key.newCategory k clientId o).path) (.done none)
        [⟨.upcall (Key.outputCategory k clientId o).path, m'⟩]
  | returning (clientId o : Nat) {k : Nat} (hk : k < (d.numCategories : Nat))
      (m : Client (Option Notification)) :
      Effect d (.upcall (Key.outputCategory k clientId o).path) m []

theorem setupOp_upcalls {op : Op} (h : SetupOp op) :
    ∀ y ∈ d.upcalls op, ∃ i, y = ⟨.upcall (entryDataKey i), .done none⟩ := by
  intro y hy
  cases op with
  | put key value =>
    rcases h with ⟨k, hk, v, rfl, rfl⟩ | ⟨i, rfl⟩ | ⟨rest, rfl⟩
    · rw [upcalls_config hk] at hy
      cases hy
    · rw [upcalls_entryDataKey, List.mem_singleton] at hy
      exact ⟨i, hy⟩
    · cases hy
  | _ => cases hy

/-- A call keeps the store in order, leaves the task that makes it where it should be, and starts
tasks where they should be. -/
structure Call (d : Deployment) (s : Store) (tag : Origin) (op : Op) (m : Client (Option Notification)) :
    Prop where
  proper : Proper d op
  self : TaskAt d (act op s).2 ⟨tag, m⟩
  started : ∀ y ∈ d.upcalls op, TaskAt d (act op s).2 y
  effect : Effect d tag m (d.upcalls op)

variable {tag : Origin} {op : Op} {m : Client (Option Notification)} {o j : Nat}

theorem Call.of_reads (h : Reads op) (hself : TaskAt d (act op s).2 ⟨tag, m⟩) (heffect : Effect d tag m []) :
    Call d s tag op m where
  proper := h.proper
  self := hself
  started := by
    rw [h.upcalls]
    exact fun y hy => absurd hy List.not_mem_nil
  effect := by
    rw [h.upcalls]
    exact heffect

/-- A put that starts one task. -/
theorem Call.of_put {key : List Char} {value : Blob} {m' : Client (Option Notification)}
    (hys : d.upcalls (.put key value) = [⟨.upcall key, m'⟩]) (hproper : Proper d (.put key value))
    (hself : TaskAt d (act (.put key value) s).2 ⟨tag, m⟩)
    (hstarted : TaskAt d (act (.put key value) s).2 ⟨.upcall key, m'⟩)
    (heffect : Effect d tag m [⟨.upcall key, m'⟩]) : Call d s tag (.put key value) m where
  proper := hproper
  self := hself
  started := by
    rw [hys]
    exact fun y hy => List.mem_singleton.mp hy ▸ hstarted
  effect := by
    rw [hys]
    exact heffect

theorem call_client {k : Reply op → Client (Option Notification)} (hc : c ∈ d.clients)
    (hm : ClientAt d c s l (.call op k)) (hs : HasConfig s) :
    Call d s (.client c.id) op (k (act op s).1) := by
  rcases hm.call hc hs with ⟨hop | rfl, hm'⟩ | ⟨ha, o, l', value, rfl, rfl, ho, hm'⟩
  · have hys := setupOp_upcalls (d := d) hop
    refine ⟨setupOp_proper hop, .client hc hm', fun y hy => ?_, .setup _ _ fun y hy => ?_⟩
    · obtain ⟨i, rfl⟩ := hys y hy
      exact .dropped i
    · obtain ⟨i, rfl⟩ := hys y hy
      exact ⟨i, rfl⟩
  · have hproper := proper_path (d := d) (k := .clientData c.id) ⟨c, hc, rfl, rfl⟩
    exact ⟨hproper, .client hc hm', fun y hy => absurd hy List.not_mem_nil,
      .setup _ _ fun y hy => absurd hy List.not_mem_nil⟩
  · have hproper : Proper d (.put (Key.object c.id o).path value) :=
      proper_path (k := .object c.id o) True.intro
    have hentry := entryAt_forwardObject (d := d) (d.hashBlob (Key.object c.id o).path) c o value
    exact .of_put (upcalls_object c.id o value) hproper (.client hc hm')
      (.entry hc ho (keeping_act hproper s _ ha) hentry) (.object _ _ _ hentry.not_done)

theorem call_entry {k : Reply op → Client (Option Notification)} (hc : c ∈ d.clients)
    (ho : (o : Int) < d.benchmarkTime) (ha : Addressed d c s) (hm : EntryAt d c o (.call op k))
    (hs : HasConfig s) : Call d s (.upcall (Key.object c.id o).path) op (k (act op s).1) := by
  rcases hm with ⟨hop, hk⟩ | ⟨⟨j, hj, value, rfl⟩, hk⟩
  · have hnext := hk _ (hs.reply op)
    exact .of_reads hop (.entry hc ho (keeping_act hop.proper s _ ha) hnext) (.read _ hnext.not_done)
  · have hproper : Proper d (.put (Key.newCategory j c.id o).path value) :=
      proper_path (k := .newCategory j c.id o) True.intro
    have hcategory := categoryAt_forwardResult (d.hashBlob (Key.newCategory j c.id o).path) c o j value
    obtain ⟨a, hdone, rfl⟩ := hk (act (.put (Key.newCategory j c.id o).path value) s).1
    rw [hdone]
    exact .of_put (upcalls_newCategory j c.id o value) hproper (.entryDone hc ho)
      (.category hc ho hj (keeping_act hproper s _ ha) hcategory) (.newCategory _ _ hj hcategory.not_done)

theorem call_category {k : Reply op → Client (Option Notification)} (hc : c ∈ d.clients)
    (ho : (o : Int) < d.benchmarkTime) (hj : j < (d.numCategories : Nat)) (ha : Addressed d c s)
    (hm : CategoryAt c o j (.call op k)) (hs : HasConfig s) :
    Call d s (.upcall (Key.newCategory j c.id o).path) op (k (act op s).1) := by
  rcases hm with ⟨hop, hk⟩ | ⟨⟨v, rfl⟩, hk⟩
  · have hnext := hk _ (hs.reply op)
    exact .of_reads hop (.category hc ho hj (keeping_act hop.proper s _ ha) hnext)
      (.read _ hnext.not_done)
  · have hexpected : expected d (.outputCategory j c.id o) (.hash v) := ⟨v, rfl⟩
    have hproper := proper_path hexpected
    obtain ⟨a, hdone, rfl⟩ := hk (act (.put (Key.outputCategory j c.id o).path (.hash v)) s).1
    rw [hdone]
    exact .of_put (upcalls_outputCategory j c.id o (.hash v)) hproper (.categoryDone hc ho hj)
      (.returning hc ho hj (keeping_act hproper s _ ha) (shows_put rfl hexpected s)
        (returnAt_returnObserver hc ho hj)) (.outputCategory _ _ hj _)

theorem TaskAt.call {k : Reply op → Client (Option Notification)} (h : TaskAt d s ⟨tag, .call op k⟩)
    (hs : HasConfig s) : Call d s tag op (k (act op s).1) := by
  cases h with
  | client hc hm => exact call_client hc hm hs
  | entry hc ho ha hm => exact call_entry hc ho ha hm hs
  | category hc ho hj ha hm => exact call_category hc ho hj ha hm hs
  | returning hc ho hj ha hshow hm =>
    have hop : Reads op := hm.1
    have hkeep := keeping_act (d := d) hop.proper s
    exact .of_reads hop (.returning hc ho hj (hkeep _ ha) (hkeep _ hshow) (hm.2 _ (ha.reply hc op)))
      (.returning _ _ hj _)

end CascadePlayground.Affinity
