import CascadePlayground.Affinity.Setup

/-! The pipeline.

A client puts an object into the entry pool. The entry stage hashes it together
with the entry parts and puts it into the pool of its category; the category stage
hashes it with the parts of the category and puts the result into the output pool;
the return stage sends the number of the object and its category to the client.
The stages are given nothing but keys, and take them apart: which object this is,
whose it is and in which category is read off the key alone.

`KeyProtocol` says that clients and stages agree on the keys. They do, but for the
port of the notification, which they agree on only for some of the clients
(`keyProtocol_iff`). -/
namespace CascadePlayground.Affinity
open Text

/-! ### The client -/

/-- The keys of `benchmark()`, up to `BENCHMARK_TIME`. -/
def benchmark (benchmarkTime : Int) (objectSize : Int) (clientId : Nat) : Client Unit :=
  (intRange 0 benchmarkTime).forM fun objectId =>
    putRandomObject (objEntryPath ++ objPathSep ++ decimal clientId ++ "_".toList ++ integer objectId)
      objectSize

def clientReturnUdpPort : Nat := 43259

/-- The port that `listen_notifications` binds. Client numbers are unsigned there.
The system chooses the port when it is asked for port 0. -/
def listenPort (anyPort : ℕ+) (clientId : Nat) : Nat :=
  let sinPort := (clientReturnUdpPort + clientId) % 2 ^ 32 % 2 ^ 16
  if sinPort = 0 then anyPort else sinPort

/-! ### The stages -/

/-- The path that led to a stage, and the separator after it. -/
def prefixLength (pathname : List Char) : Nat := pathname.length + 1

/-- An unsigned number in an `int`. -/
def toInt (n : Nat) : Int := Int.bmod n (2 ^ 32)

/-- The hash of an object with its parts. `hashBlob` is `hash_blob`, of which nothing
is assumed: the store does not keep the bytes that it hashes. -/
def hashAll (hashBlob : Option Blob → UInt64) (value : Blob) (parts : List (Option Blob)) : UInt64 :=
  parts.foldl (fun hashes part => hashes + hashBlob part) (hashBlob (some value))

/-- The source has arrays of `numParts` elements here and in `categoryObserver`, for which there
must be room on the stack. -/
def entryObserver (hashBlob : Option Blob → UInt64) (numCategories : ℕ+) (keyString : List Char)
    (value : Blob) : Client Unit := do
  if find keyString (objEntryPath ++ objPathSep ++ "data".toList) = some 0 then pure ()
  else
    let numParts ← getConfigInt objConfigNumEntryParts
    let parts ← (intRange 0 numParts).mapM fun i =>
      get (objEntryPath ++ objPathSep ++ "data_".toList ++ integer i)
    let category := toInt ((hashAll hashBlob value parts).toNat % numCategories)
    let objId ← lift (substr keyString (prefixLength objEntryPath) none)
    put (objNewCategoryPath ++ objPathSep ++ integer category ++ objPathSep ++ objId) value

def categoryObserver (hashBlob : Option Blob → UInt64) (keyString : List Char) (value : Blob) :
    Client Unit := do
  let keyValues ← lift (substr keyString (prefixLength objNewCategoryPath) none)
  let pos := find keyValues objPathSep
  let category ← lift (substr keyValues 0 pos)
  let objId ← lift (substr keyValues (next pos) none)
  let numParts ← getConfigInt objConfigNumDataParts
  let parts ← (intRange 0 numParts).mapM fun i =>
    get (objDataCategoryPath ++ objPathSep ++ category ++ objPathSep ++ integer i)
  let result := hashAll hashBlob value parts
  put (objOutputCategoryPath ++ objPathSep ++ category ++ objPathSep ++ objId) (.hash result)

/-- A packet to a client. -/
structure Notification where
  address : List Char
  port : Nat
  objectId : Int
  category : Int
  nodeId : Int
deriving DecidableEq, Repr

/-- `notify_client`. Client numbers are signed here. -/
def notifyClient (ipAddress : List Char) (objectId category nodeId clientId : Int) : Client Notification :=
  let port := clientReturnUdpPort + clientId
  if -2 ^ 31 ≤ port ∧ port < 2 ^ 31 then
    pure ⟨ipAddress, (port % 2 ^ 16).toNat, objectId, category, nodeId⟩
  else Program.fail .overflow

def returnObserver (myId : Nat) (keyString : List Char) : Client Notification := do
  let keyValues ← lift (substr keyString (prefixLength objOutputCategoryPath) none)
  let pos := find keyValues objPathSep
  let objId ← lift (substr keyValues (next pos) none)
  let category ← lift (stoi (← lift (substr keyValues 0 pos)))
  let pos := find objId "_".toList
  let clientId ← lift (substr objId 0 pos)
  let objectId ← lift (stoi (← lift (substr objId (next pos) none)))
  let clientIp ← getConfigStr (objConfigClientData ++ clientId)
  notifyClient clientIp objectId category (toInt myId) (← lift (stoi clientId))

/-! ### Keys taken apart -/

section Keys
variable {α : Type}

@[simp] theorem lift_ok (a : α) : lift (.ok a) = pure a := rfl

/-- What a stage finds after the path. -/
theorem substr_prefixLength (path name : List Char) :
    substr (path ++ objPathSep ++ name) (prefixLength path) none = .ok name := by
  have hlen : prefixLength path = (path ++ objPathSep).length := by
    rw [List.length_append]
    rfl
  rw [hlen, substr_after]

theorem find_category (k : Nat) (name : List Char) :
    find (decimal k ++ '/' :: name) objPathSep = some (decimal k).length :=
  find_sep (notMem_decimal rfl k) name

theorem find_objectName (c o : Nat) : find (objectName c o) "_".toList = some (decimal c).length :=
  find_sep (notMem_decimal rfl c) _

theorem toInt_natCast {n : Nat} (h : n < 2 ^ 31) : toInt n = n := by
  unfold toInt
  rw [Int.bmod_eq_of_le (by omega) (by omega)]

theorem mapM_intRange_congr {last : Int} {f g : Int → Client α} (hfg : ∀ i : Nat, f i = g i) :
    (intRange 0 last).mapM f = (intRange 0 last).mapM g := by
  have hbody : (f ∘ fun j : Nat => (0 : Int) + j) = g ∘ fun j : Nat => (0 : Int) + j := by
    funext j
    show f (0 + j) = g (0 + j)
    rw [Int.zero_add]
    exact hfg j
  rw [intRange, List.mapM_map, List.mapM_map, hbody]

end Keys

/-! ### What the stages are to do

Said with keys, not with strings. -/

variable (hashBlob : Option Blob → UInt64) (numCategories : ℕ+)

/-- Entry stage: into the pool of the category. -/
def forwardObject (clientId objectId : Nat) (value : Blob) : Client Unit := do
  let numParts ← getConfigInt Key.numEntryParts.path
  let parts ← (intRange 0 numParts).mapM fun i => get (Key.entryData i.toNat).path
  let k := (hashAll hashBlob value parts).toNat % numCategories
  put (Key.newCategory k clientId objectId).path value

/-- Category stage: the result into the output pool. -/
def forwardResult (k clientId objectId : Nat) (value : Blob) : Client Unit := do
  let numParts ← getConfigInt Key.numDataParts.path
  let parts ← (intRange 0 numParts).mapM fun i => get (Key.categoryData k i.toNat).path
  put (Key.outputCategory k clientId objectId).path (.hash (hashAll hashBlob value parts))

/-- Return stage: to the address that the client has put, and the port it has bound. -/
def notifyOwner (anyPort : ℕ+) (myId k clientId objectId : Nat) : Client Notification := do
  let clientIp ← getConfigStr (Key.clientData clientId).path
  pure ⟨clientIp, listenPort anyPort clientId, objectId, k, toInt myId⟩

/-- Clients and stages agree on the keys of an object, and the client gets the
notification. -/
structure KeyProtocol (anyPort : ℕ+) (clientId objectId : Nat) : Prop where
  object : ∀ benchmarkTime objectSize, benchmark benchmarkTime objectSize clientId =
    (intRange 0 benchmarkTime).forM fun o => putRandomObject (Key.object clientId o.toNat).path objectSize
  entryParts : ∀ p n, n ≤ p.numEntryParts → putEntryData p n =
    (intRange (p.numEntryParts - n) p.numEntryParts).forM fun i =>
      putRandomObject (Key.entryData i.toNat).path p.entryPartSize
  categoryParts : ∀ p n, n ≤ p.numDataParts → putCategoriesData numCategories p n =
    (List.range numCategories).forM fun k =>
      (intRange (p.numDataParts - n) p.numDataParts).forM fun i =>
        putRandomObject (Key.categoryData k i.toNat).path p.dataPartSize
  address : ∀ p clientIp, setup numCategories p clientId clientIp = do
    let toPut ← config p
    put (Key.clientData clientId).path (.str clientIp)
    putEntryData p toPut.1
    putCategoriesData numCategories p toPut.2
  /-- Entry parts are not taken for objects. -/
  dropped : ∀ i value, entryObserver hashBlob numCategories (Key.entryData i).path value = pure ()
  entry : ∀ value, entryObserver hashBlob numCategories (Key.object clientId objectId).path value =
    forwardObject hashBlob numCategories clientId objectId value
  category : ∀ k < (numCategories : Nat), ∀ value,
    categoryObserver hashBlob (Key.newCategory k clientId objectId).path value =
      forwardResult hashBlob k clientId objectId value
  notified : ∀ k < (numCategories : Nat), ∀ myId,
    returnObserver myId (Key.outputCategory k clientId objectId).path =
      notifyOwner anyPort myId k clientId objectId

theorem benchmark_eq (benchmarkTime objectSize : Int) (clientId : Nat) :
    benchmark benchmarkTime objectSize clientId =
      (intRange 0 benchmarkTime).forM fun o =>
        putRandomObject (Key.object clientId o.toNat).path objectSize := by
  apply forM_intRange_congr (.inl (Int.le_refl 0))
  intro o
  have hpath : objEntryPath ++ objPathSep ++ decimal clientId ++ "_".toList ++ decimal o =
      (Key.object clientId o).path := by
    rw [List.append_assoc, List.append_assoc (objEntryPath ++ objPathSep)]
    rfl
  rw [integer_natCast, hpath, Int.toNat_natCast]

theorem entryObserver_entryData (i : Nat) (value : Blob) :
    entryObserver hashBlob numCategories (Key.entryData i).path value = pure () := by
  apply if_pos
  apply find_eq_zero.mpr
  have hdata : objEntryPath ++ objPathSep ++ "data_".toList =
      objEntryPath ++ objPathSep ++ "data".toList ++ "_".toList := rfl
  rw [Key.path, hdata, List.append_assoc (objEntryPath ++ objPathSep ++ "data".toList)]
  exact List.prefix_append _ _

/-- The number of a client is no `data`. -/
theorem find_object (clientId objectId : Nat) :
    find (Key.object clientId objectId).path (objEntryPath ++ objPathSep ++ "data".toList) ≠ some 0 := by
  intro h
  obtain ⟨rest, hrest⟩ := find_eq_zero.mp h
  rw [Key.path, List.append_assoc (objEntryPath ++ objPathSep)] at hrest
  have hname := List.append_cancel_left hrest
  obtain ⟨d, digits, hd, hdigit⟩ := decimal_cons clientId
  rw [objectName, hd] at hname
  obtain rfl : 'd' = d := (List.cons.inj hname).1
  cases hdigit

theorem entryObserver_object (hK : (numCategories : Nat) ≤ 2 ^ 31) (clientId objectId : Nat)
    (value : Blob) :
    entryObserver hashBlob numCategories (Key.object clientId objectId).path value =
      forwardObject hashBlob numCategories clientId objectId value := by
  rw [entryObserver, if_neg (find_object clientId objectId)]
  have hparts : ∀ numParts, (intRange 0 numParts).mapM (fun i =>
      get (objEntryPath ++ objPathSep ++ "data_".toList ++ integer i)) =
      (intRange 0 numParts).mapM fun i => get (Key.entryData i.toNat).path :=
    fun numParts => mapM_intRange_congr fun i => by rw [integer_natCast, Int.toNat_natCast]; rfl
  have hid : substr (Key.object clientId objectId).path (prefixLength objEntryPath) none =
      .ok (objectName clientId objectId) := substr_prefixLength _ _
  simp only [hparts, hid, lift_ok, pure_bind]
  refine bind_congr fun numParts => bind_congr fun parts => ?_
  have hk : (hashAll hashBlob value parts).toNat % (numCategories : Nat) < 2 ^ 31 :=
    Nat.lt_of_lt_of_le (Nat.mod_lt _ numCategories.2) hK
  rw [toInt_natCast hk, integer_natCast]
  rfl

theorem categoryObserver_newCategory (k clientId objectId : Nat) (value : Blob) :
    categoryObserver hashBlob (Key.newCategory k clientId objectId).path value =
      forwardResult hashBlob k clientId objectId value := by
  have hpath : (Key.newCategory k clientId objectId).path =
      objNewCategoryPath ++ objPathSep ++ (decimal k ++ '/' :: objectName clientId objectId) := by
    simp only [Key.path, List.append_assoc]
    rfl
  have hparts : ∀ numParts, (intRange 0 numParts).mapM (fun i =>
      get (objDataCategoryPath ++ objPathSep ++ decimal k ++ objPathSep ++ integer i)) =
      (intRange 0 numParts).mapM fun i => get (Key.categoryData k i.toNat).path :=
    fun numParts => mapM_intRange_congr fun i => by rw [integer_natCast, Int.toNat_natCast]; rfl
  rw [categoryObserver, hpath]
  simp only [substr_prefixLength, find_category, substr_before, substr_next, lift_ok, pure_bind, hparts]
  rfl

theorem returnObserver_outputCategory (myId : Nat) {k clientId objectId : Nat} (hk : k < 2 ^ 31)
    (hc : clientId < 2 ^ 31) (ho : objectId < 2 ^ 31) :
    returnObserver myId (Key.outputCategory k clientId objectId).path = (do
      let clientIp ← getConfigStr (Key.clientData clientId).path
      notifyClient clientIp objectId k (toInt myId) clientId) := by
  have hpath : (Key.outputCategory k clientId objectId).path =
      objOutputCategoryPath ++ objPathSep ++ (decimal k ++ '/' :: objectName clientId objectId) := by
    simp only [Key.path, List.append_assoc]
    rfl
  have hstoi : ∀ n, n < 2 ^ 31 → stoi (decimal n) = .ok (n : Int) := by
    intro n hn
    have h := stoi_decimal hn noDigit_nil
    rwa [List.append_nil] at h
  rw [returnObserver, hpath]
  simp only [substr_prefixLength, find_category, find_objectName, substr_before, substr_next, lift_ok,
    pure_bind, hstoi k hk]
  simp only [objectName, substr_before, substr_next, lift_ok, pure_bind, hstoi objectId ho,
    hstoi clientId hc]
  rfl

/-! ### The port of the notification -/

/-- The sum of the port and the number of the client is an `int`, and none that
leaves it to the system to choose a port. -/
def PortFits (clientId : Nat) : Prop :=
  clientReturnUdpPort + clientId < 2 ^ 31 ∧ (clientReturnUdpPort + clientId) % 2 ^ 16 ≠ 0

instance (clientId : Nat) : Decidable (PortFits clientId) := instDecidableAnd

theorem listenPort_of_fits {clientId : Nat} (h : PortFits clientId) (anyPort : ℕ+) :
    listenPort anyPort clientId = (clientReturnUdpPort + clientId) % 2 ^ 16 := by
  have hwrap : (clientReturnUdpPort + clientId) % 2 ^ 32 = clientReturnUdpPort + clientId :=
    Nat.mod_eq_of_lt (Nat.lt_trans h.1 (by decide))
  simp only [listenPort, hwrap]
  exact if_neg h.2

theorem notifyClient_of_lt {clientId : Nat} (h : clientReturnUdpPort + clientId < 2 ^ 31)
    (ipAddress : List Char) (objectId category nodeId : Int) :
    notifyClient ipAddress objectId category nodeId clientId =
      pure ⟨ipAddress, (clientReturnUdpPort + clientId) % 2 ^ 16, objectId, category, nodeId⟩ := by
  have hport : (((clientReturnUdpPort : Int) + clientId) % 2 ^ 16).toNat =
      (clientReturnUdpPort + clientId) % 2 ^ 16 := by omega
  unfold notifyClient
  rw [if_pos (by omega), hport]

theorem returnObserver_of_fits (anyPort : ℕ+) (myId : Nat) {k clientId objectId : Nat} (hk : k < 2 ^ 31)
    (hc : clientId < 2 ^ 31) (ho : objectId < 2 ^ 31) (h : PortFits clientId) :
    returnObserver myId (Key.outputCategory k clientId objectId).path =
      notifyOwner anyPort myId k clientId objectId := by
  rw [returnObserver_outputCategory myId hk hc ho]
  simp only [notifyClient_of_lt h.1, notifyOwner, listenPort_of_fits h]

variable {hashBlob numCategories}

/-- The port that the notification goes to is the one that the client has bound. -/
theorem KeyProtocol.portFits {anyPort : ℕ+} {clientId objectId : Nat} (hc : clientId < 2 ^ 31)
    (ho : objectId < 2 ^ 31) (h : KeyProtocol hashBlob numCategories anyPort clientId objectId) :
    PortFits clientId := by
  have heq := h.notified 0 numCategories.2 0
  rw [returnObserver_outputCategory 0 (by decide) hc ho] at heq
  -- a store with the address of the client
  have haddress : (Store.put [] (Key.clientData clientId).path (.str [])).value (.clientData clientId) =
      some (.str []) := by
    rw [Store.value_put, if_pos rfl]
  have hrun := congrArg (fun m => m.run act (Store.put [] (Key.clientData clientId).path (.str []))) heq
  simp only [Program.run_bind, run_getConfigStr haddress, notifyOwner, Program.run_pure] at hrun
  by_cases hlt : clientReturnUdpPort + clientId < 2 ^ 31
  · rw [notifyClient_of_lt hlt, Program.run_pure] at hrun
    have hsame := congrArg Notification.port (Prod.mk.inj (Except.ok.inj hrun)).1
    refine ⟨hlt, fun hzero => ?_⟩
    have hany : listenPort anyPort clientId = anyPort := by
      have hwrap : (clientReturnUdpPort + clientId) % 2 ^ 32 % 2 ^ 16 = 0 := by omega
      simp only [listenPort, hwrap, if_true]
    -- the system chooses another port than 0
    have hzero' : (anyPort : Nat) = 0 := hany.symm.trans (hsame.symm.trans hzero)
    exact Nat.ne_of_gt anyPort.2 hzero'
  · have hover : ∀ ip o k node, notifyClient ip o k node clientId = Program.fail .overflow := by
      intro ip o k node
      unfold notifyClient
      rw [if_neg (by omega)]
    rw [hover] at hrun
    cases hrun

/-- **Clients and stages agree on every key**, and on the port exactly for the
clients whose port fits. `NUM_CATEGORIES` is an `int`. -/
theorem keyProtocol_iff (hashBlob : Option Blob → UInt64) (numCategories anyPort : ℕ+)
    (clientId objectId : Nat) (hK : (numCategories : Nat) < 2 ^ 31) (hc : clientId < 2 ^ 31)
    (ho : objectId < 2 ^ 31) :
    KeyProtocol hashBlob numCategories anyPort clientId objectId ↔ PortFits clientId := by
  refine ⟨KeyProtocol.portFits hc ho, fun h => ?_⟩
  exact
    { object := fun _ _ => benchmark_eq ..
      entryParts := fun p _ hn => putEntryData_eq p (.inl hn)
      categoryParts := fun p _ hn => putCategoriesData_eq numCategories p (.inl hn)
      address := fun _ _ => rfl
      dropped := entryObserver_entryData hashBlob numCategories
      entry := entryObserver_object hashBlob numCategories (Nat.le_of_lt hK) clientId objectId
      category := fun k _ => categoryObserver_newCategory hashBlob k clientId objectId
      notified := fun k hk myId => returnObserver_of_fits anyPort myId (Nat.lt_trans hk hK) hc ho h }

/-- A port that the system may choose. -/
def ephemeralPort : ℕ+ := ⟨32768, by decide⟩

theorem keyProtocol_seven : KeyProtocol (fun _ => 0) defaultCategories ephemeralPort 7 3 :=
  (keyProtocol_iff (fun _ => 0) defaultCategories ephemeralPort 7 3 (by decide) (by decide)
    (by decide)).mpr (by decide)

/-- One client is notified at port 0, and one at none. -/
theorem not_keyProtocol :
    ¬ KeyProtocol (fun _ => 0) defaultCategories ephemeralPort 22277 0 ∧
      ¬ KeyProtocol (fun _ => 0) defaultCategories ephemeralPort 2147483647 0 := by
  constructor
  · intro h
    exact absurd (h.portFits (by decide) (by decide)) (by decide)
  · intro h
    exact absurd (h.portFits (by decide) (by decide)) (by decide)

end CascadePlayground.Affinity
