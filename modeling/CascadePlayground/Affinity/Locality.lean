import CascadePlayground.Affinity.Grouping
import CascadePlayground.Affinity.Delivery

/-! What the affinity sets are for.

An upcall runs where the object is kept that it was started for. What it reads and puts
should be kept there too, so that a stage does not leave its node. `Access` is all that a
stage asks of the store, said with keys. In every state of the pipeline at work, the
accesses of an upcall are to the configuration or to the affinity set of its object, but
for one: the entry stage puts the object into its category (`accesses_local`). Without a
set for the entry pool (logic 2) that goes for the category and the return stages only. -/
namespace CascadePlayground.Affinity
open Text Program

/-- The key that a call is about. -/
def Op.key? : Op → Option (List Char)
  | .listKeys _ => none
  | .get key => some key
  | .put key _ => some key

/-- What a stage asks of the store, when it was started for this key. -/
inductive Access : Key → Op → Prop where
  | config (trigger : Key) {k : Key} (h : k.kind = .config) : Access trigger (.get k.path)
  | part (trigger : Key) {k : Key} (h : k.kind = trigger.kind) (hne : trigger.kind ≠ .config) :
      Access trigger (.get k.path)
  | forward (k clientId objectId : Nat) (value : Blob) :
      Access (.object clientId objectId) (.put (Key.newCategory k clientId objectId).path value)
  | result (k clientId objectId : Nat) (value : Blob) :
      Access (.newCategory k clientId objectId) (.put (Key.outputCategory k clientId objectId).path value)

variable {d : Deployment} {s s' : System} {s₀ : Store}

/-! ### The stages -/

theorem calls_forwardObject (hashBlob : Option Blob → UInt64) (numCategories : ℕ+)
    (clientId objectId : Nat) (value : Blob) :
    (forwardObject hashBlob numCategories clientId objectId value).Calls
      (Access (.object clientId objectId)) := by
  refine (calls_getConfigInt (.config _ (k := .numEntryParts) rfl)).bind fun numParts _ => ?_
  refine (calls_getParts (fun i => .part _ (k := .entryData i.toNat) rfl nofun) numParts).bind
    fun parts _ => ?_
  exact Obeys.perform (Access.forward _ clientId objectId value) fun _ _ => True.intro

theorem calls_forwardResult (hashBlob : Option Blob → UInt64) (k clientId objectId : Nat) (value : Blob) :
    (forwardResult hashBlob k clientId objectId value).Calls (Access (.newCategory k clientId objectId)) := by
  refine (calls_getConfigInt (.config _ (k := .numDataParts) rfl)).bind fun numParts _ => ?_
  refine (calls_getParts (fun i => .part _ (k := .categoryData k i.toNat) rfl nofun) numParts).bind
    fun parts _ => ?_
  exact Obeys.perform (Access.result k clientId objectId _) fun _ _ => True.intro

theorem calls_returnObserver_outputCategory (myId : Nat) {k clientId objectId : Nat} (hk : k < 2 ^ 31)
    (hc : clientId < 2 ^ 31) (ho : objectId < 2 ^ 31) :
    (returnObserver myId (Key.outputCategory k clientId objectId).path).Calls
      (Access (.outputCategory k clientId objectId)) := by
  rw [returnObserver_outputCategory myId hk hc ho]
  have haddress : (getConfigStr (Key.clientData clientId).path).Calls
      (Access (.outputCategory k clientId objectId)) := calls_getConfigStr (.config _ rfl)
  refine haddress.bind fun ip _ => ?_
  generalize (objectId : Int) = o
  generalize (clientId : Int) = c
  exact calls_notifyClient ..

/-! ### The pipeline at work -/

/-- What is left of an upcall keeps to the accesses of its stage. -/
def Keeps (x : Task) : Prop :=
  (∃ clientId, x.tag = .client clientId) ∨ x.program.isDone = true ∨
    ∃ trigger : Key, x.tag = .upcall trigger.path ∧ x.program.Calls (Access trigger)

/-- What a put starts. -/
theorem keeps_started {st : Store} {op : Op} {y : Task} (hy : y ∈ d.upcalls op) (h : TaskAt d st y) :
    Keeps y := by
  cases op with
  | listKeys pool => cases hy
  | get key => cases hy
  | put key value =>
    have htag : y.tag = .upcall key := by
      obtain ⟨m, _, rfl⟩ := List.mem_map.mp hy
      rfl
    cases h with
    | client hc hm => exact .inl ⟨_, rfl⟩
    | dropped i => exact .inr (.inl rfl)
    | entryDone hc ho => exact .inr (.inl rfl)
    | categoryDone hc ho hk => exact .inr (.inl rfl)
    | entry hc ho ha hm =>
      obtain rfl := Origin.upcall.inj htag
      rw [upcalls_object, List.mem_singleton] at hy
      refine .inr (.inr ⟨_, rfl, ?_⟩)
      rw [congrArg Process.program hy]
      exact (calls_forwardObject _ _ _ _ _).bind fun _ _ => True.intro
    | category hc ho hk ha hm =>
      obtain rfl := Origin.upcall.inj htag
      rw [upcalls_newCategory, List.mem_singleton] at hy
      refine .inr (.inr ⟨_, rfl, ?_⟩)
      rw [congrArg Process.program hy]
      exact (calls_forwardResult _ _ _ _ _).bind fun _ _ => True.intro
    | returning hc ho hk ha hs hm =>
      obtain rfl := Origin.upcall.inj htag
      rw [upcalls_outputCategory, List.mem_singleton] at hy
      refine .inr (.inr ⟨_, rfl, ?_⟩)
      rw [congrArg Process.program hy]
      have hport := d.ports_lt _ hc
      have hobjects := d.objects_lt
      refine (calls_returnObserver_outputCategory _ (Nat.lt_trans hk d.categories_lt) ?_ ?_).bind
        fun _ _ => True.intro
      · omega
      · omega

theorem keeps_reached (h₀ : HasConfig s₀) (h : d.Reached s₀ s) : ∀ x ∈ s.processes, Keeps x := by
  have hstep : Transition.Preserved d.Step fun s =>
      HasConfig s.shared ∧ ∀ x ∈ s.processes, TaskAt d s.shared x ∧ Keeps x := by
    refine Pool.keepsAll_step (J := HasConfig) (P := fun x s => TaskAt d s x ∧ Keeps x) (R := Keeping d)
      (fun x s s' hs h => ⟨h.1.keeping hs, h.2⟩) fun tag op k s hs h => ?_
    have hcall := h.1.call hs
    have hkeep := keeping_act hcall.proper s
    refine ⟨hs.keeping hkeep, hkeep, ⟨hcall.self, ?_⟩, fun y hy => ⟨hcall.started y hy,
      keeps_started hy (hcall.started y hy)⟩⟩
    rcases h.2 with ⟨clientId, hclient⟩ | hdone | ⟨trigger, htrigger, hcalls⟩
    · exact .inl ⟨clientId, hclient⟩
    · cases hdone
    · exact .inr (.inr ⟨trigger, htrigger, hcalls.2 _ True.intro⟩)
  refine fun x hx => ((hstep.run h ⟨h₀, fun x hx => ?_⟩).2 x hx).2
  obtain ⟨c, hc, rfl⟩ := List.mem_map.mp hx
  exact ⟨.client hc (clientAt_main d c s₀), .inl ⟨_, rfl⟩⟩

/-! ### Affinity sets -/

/-- Keys of one kind are kept together, with logic 1. -/
theorem affinityLogic1_of_kind {k k' : Key} (h : k.kind = k'.kind) (hconfig : k'.kind ≠ .config) :
    affinityLogic1 k.path = affinityLogic1 k'.path := by
  rw [affinityLogic1_key, affinityLogic1_key, Key.affinity, Key.affinity, h]
  cases hkind : k'.kind with
  | config => exact absurd hkind hconfig
  | entry => rfl
  | category c => rfl

theorem affinityLogic2_of_kind {k k' : Key} {c : Nat} (h : k.kind = .category c)
    (h' : k'.kind = .category c) : affinityLogic2 k.path = affinityLogic2 k'.path := by
  rw [affinityLogic2_key, affinityLogic2_key, Key.affinity, Key.affinity, h, h']

/-- Where the next call of an upcall goes, and what it is. -/
inductive Place (key accessed : List Char) (m : Client (Option Notification)) : Prop where
  | config (h : objConfigPath <+: accessed) (hget : m.next? = some (.get accessed))
  /-- The affinity set of the object, with either logic if it is that of a category. -/
  | same (h : affinityLogic1 accessed = affinityLogic1 key)
      (hcategory : affinityLogic1 key ≠ .ok entryAffinityKey → affinityLogic2 accessed = affinityLogic2 key)
  /-- From the entry pool into a category, by the last call of the stage. -/
  | forward (k clientId objectId : Nat) (value : Blob) (hkey : key = (Key.object clientId objectId).path)
      (haccessed : accessed = (Key.newCategory k clientId objectId).path)
      (hput : m.next? = some (.put accessed value)) (hlast : m.LastCall)

theorem startsWith_config {k : Key} (h : k.kind = .config) : objConfigPath <+: k.path := by
  cases k <;> first | exact List.prefix_append _ _ | cases h

theorem place_of_kind {k trigger : Key} (h : k.kind = trigger.kind) (hne : trigger.kind ≠ .config)
    (m : Client (Option Notification)) : Place trigger.path k.path m := by
  cases hkind : trigger.kind with
  | entry =>
    refine .same (affinityLogic1_of_kind h hne) fun hentry => absurd ?_ hentry
    rw [affinityLogic1_key, Key.affinity, hkind]
  | category c =>
    exact .same (affinityLogic1_of_kind h hne) fun _ => affinityLogic2_of_kind (h.trans hkind) hkind
  | config => exact absurd hkind hne

/-- A stage puts nothing after its first put. -/
theorem TaskAt.lastCall {st : Store} {key key' : List Char} {value : Blob}
    {k : Reply (.put key' value) → Client (Option Notification)}
    (h : TaskAt d st ⟨.upcall key, .call (.put key' value) k⟩) :
    (.call (.put key' value) k : Client (Option Notification)).LastCall := by
  cases h with
  | entry hc ho ha hm => exact EndsWith.lastCall hm id
  | category hc ho hk ha hm => exact EndsWith.lastCall hm id
  | returning hc ho hk ha hs hm => exact absurd hm.1 id

/-- **A stage stays with its object**: in every state of the pipeline, a call of an upcall that is
not a get of the configuration is about a key of the affinity set of the key that started it; but
the last call of an entry stage puts the object into its category. -/
theorem accesses_local (d : Deployment) {s₀ : Store} (h₀ : HasConfig s₀) {s : System}
    (h : d.Reached s₀ s) {x : Task} (hx : x ∈ s.processes) {key : List Char} (hkey : x.tag = .upcall key)
    {op : Op} (hop : x.program.next? = some op) :
    ∃ accessed, op.key? = some accessed ∧ Place key accessed x.program := by
  obtain ⟨tag, m⟩ := x
  obtain rfl : tag = .upcall key := hkey
  cases m with
  | done packet => cases hop
  | fail e => cases hop
  | call op' k =>
    obtain rfl := Option.some.inj hop
    rcases keeps_reached h₀ h _ hx with ⟨clientId, hclient⟩ | hdone | ⟨trigger, htrigger, hcalls⟩
    · cases hclient
    · cases hdone
    · obtain rfl := Origin.upcall.inj htrigger
      cases hcalls.1 with
      | config _ hkind => exact ⟨_, rfl, .config (startsWith_config hkind) rfl⟩
      | forward j clientId objectId value =>
        have hlast := ((Sound.reached h₀ h).2 _ hx).lastCall
        exact ⟨_, rfl, .forward j clientId objectId value rfl rfl rfl hlast⟩
      | part _ hkind hne => exact ⟨_, rfl, place_of_kind hkind hne _⟩
      | result j clientId objectId value =>
        have hkind : (Key.outputCategory j clientId objectId).kind =
            (Key.newCategory j clientId objectId).kind := rfl
        exact ⟨_, rfl, place_of_kind hkind nofun _⟩

/-- The category stage is about to put the result. -/
def computed : System := (Pool.schedule act oneObject.upcalls underWay [2]).getD underWay

theorem accesses_local_computed :
    ∃ x ∈ computed.processes, x.tag = .upcall (Key.newCategory 1 7 0).path ∧
      Place (Key.newCategory 1 7 0).path (Key.outputCategory 1 7 0).path x.program := by
  have hreached : oneObject.Reached noParts computed :=
    reached_underWay.trans (Pool.reaches_schedule act oneObject.upcalls [2] rfl)
  have hany : computed.processes.any fun x => x.tag == .upcall (Key.newCategory 1 7 0).path &&
      (x.program.next?.bind Op.key?) == some (Key.outputCategory 1 7 0).path := by decide +kernel
  obtain ⟨x, hx, hnext⟩ := List.any_eq_true.mp hany
  simp only [Bool.and_eq_true, beq_iff_eq] at hnext
  obtain ⟨op, hop, hput⟩ := Option.bind_eq_some_iff.mp hnext.2
  obtain ⟨accessed, haccessed, hplace⟩ := accesses_local oneObject hasConfig_noParts hreached hx hnext.1 hop
  obtain rfl := Option.some.inj (haccessed.symm.trans hput)
  exact ⟨x, hx, hnext.1, hplace⟩

end CascadePlayground.Affinity
