import CascadePlayground.Affinity.Delivery
import CascadePlayground.Affinity.Results
import Mathlib.Data.List.FinRange

/-! What the client records.

A thread of the client listens for packets while the objects are put, and keeps in three
arrays what came last for each object and when. The network may lose packets, deliver them
more than once and in any order, and the thread stops listening at some time; packets of
another length are let pass. What is written to the results file after that, and read back
by the plotting script, is right nevertheless (`recorded_right`): the samples are those of
the objects that have been heard of, with the category that the pipeline has found, and
there are no others. When nothing is lost there is one for every object that the script does
not skip (`all_recorded`). No two clients listen at one socket here.

Points in time are in nanoseconds since the epoch of the clock. The array of the times
is zero at first, and the other two are not set. -/
namespace CascadePlayground.Affinity

/-! ### The listener -/

/-- The three ints of a packet. -/
structure Message where
  objectId : Int
  category : Int
  nodeId : Int
deriving DecidableEq, Repr

/-- What `recvfrom` gives: a message, or something that does not fill the buffer. -/
structure Received where
  message : Option Message
  now : Int
deriving DecidableEq, Repr

structure Arrays (n : Nat) where
  rcvTimestamps : Fin n → Int
  objCat : Fin n → Int
  objNodeId : Fin n → Int

section Listen
variable {n : Nat}

/-- A round of the loop of `listen_notifications`; none if it writes outside of the arrays. -/
def Arrays.notice (a : Arrays n) (r : Received) : Option (Arrays n) :=
  match r.message with
  | none => some a
  | some m =>
    if h : m.objectId.toNat < n ∧ 0 ≤ m.objectId then
      some ⟨Function.update a.rcvTimestamps ⟨m.objectId.toNat, h.1⟩ r.now,
        Function.update a.objCat ⟨m.objectId.toNat, h.1⟩ m.category,
        Function.update a.objNodeId ⟨m.objectId.toNat, h.1⟩ m.nodeId⟩
    else none

def listenNotifications (a : Arrays n) (heard : List Received) : Option (Arrays n) :=
  heard.foldlM Arrays.notice a

/-- A message about this object, and when it came. -/
def Received.about (r : Received) (objectId : Nat) : Option (Message × Int) :=
  match r.message with
  | some m => if m.objectId = (objectId : Int) then some (m, r.now) else none
  | none => none

/-- What came last for the object. -/
def lastHeard (heard : List Received) (objectId : Nat) : Option (Message × Int) :=
  (heard.filterMap fun r => r.about objectId).getLast?

theorem lastHeard_cons (r : Received) (heard : List Received) (objectId : Nat) :
    lastHeard (r :: heard) objectId = (lastHeard heard objectId).or (r.about objectId) := by
  unfold lastHeard
  rw [List.filterMap_cons]
  cases r.about objectId with
  | none => exact Option.or_none.symm
  | some x =>
    show (x :: _).getLast? = _
    rw [List.getLast?_cons]
    cases List.getLast? _ <;> rfl

/-- What the arrays have for an object. -/
def Arrays.entry (a : Arrays n) (i : Fin n) : Int × Int × Int :=
  (a.rcvTimestamps i, a.objCat i, a.objNodeId i)

/-- What a message has for its object. -/
def entryOf (x : Message × Int) : Int × Int × Int := (x.2, x.1.category, x.1.nodeId)

/-- A round touches the entries of the object that the message is about, and no others. -/
theorem notice_entry {a : Arrays n} {r : Received}
    (hr : ∀ m, r.message = some m → ∃ o < n, m.objectId = (o : Nat)) :
    ∃ b, a.notice r = some b ∧ ∀ i : Fin n, b.entry i = ((r.about i).map entryOf).getD (a.entry i) := by
  obtain ⟨message, now⟩ := r
  cases message with
  | none => exact ⟨a, rfl, fun i => rfl⟩
  | some m =>
    obtain ⟨o, ho, hm⟩ := hr m rfl
    obtain ⟨objectId, category, nodeId⟩ := m
    obtain rfl : objectId = o := hm
    refine ⟨_, dif_pos ⟨ho, Int.natCast_nonneg o⟩, fun i => ?_⟩
    by_cases hi : i = ⟨o, ho⟩
    · subst hi
      simp [Received.about, Arrays.entry, entryOf]
    · have hne : (o : Int) ≠ (i : Nat) := by
        intro h
        exact hi (Fin.ext (Int.ofNat.inj h.symm))
      simp [Received.about, Arrays.entry, hi, hne]

/-- What the listener leaves, if every message is about one of the objects. -/
theorem listen_entry {heard : List Received}
    (hheard : ∀ r ∈ heard, ∀ m, r.message = some m → ∃ o < n, m.objectId = (o : Nat)) (a : Arrays n) :
    ∃ b, listenNotifications a heard = some b ∧
      ∀ i : Fin n, b.entry i = ((lastHeard heard i).map entryOf).getD (a.entry i) := by
  induction heard generalizing a with
  | nil => exact ⟨a, rfl, fun i => rfl⟩
  | cons r heard ih =>
    obtain ⟨b, hb, hentry⟩ := notice_entry (a := a) (hheard r (List.mem_cons_self ..))
    obtain ⟨b', hb', hentry'⟩ := ih (fun r' hr' => hheard r' (List.mem_cons_of_mem _ hr')) b
    refine ⟨b', ?_, fun i => ?_⟩
    · rw [listenNotifications, List.foldlM_cons, hb]
      exact hb'
    · rw [hentry', hentry, lastHeard_cons]
      cases lastHeard heard i <;> rfl

end Listen

/-! ### The results file -/

/-- `duration_cast<microseconds>` -/
def microseconds (nanoseconds : Int) : Int := nanoseconds.tdiv 1000

theorem microseconds_pos {x : Int} : 0 < microseconds x ↔ 1000 ≤ x := by
  unfold microseconds
  by_cases h : 0 ≤ x
  · rw [Int.tdiv_eq_ediv_of_nonneg h]
    omega
  · have hneg : x.tdiv 1000 = -((-x) / 1000) := by
      rw [← Int.tdiv_eq_ediv_of_nonneg (by omega), Int.neg_tdiv, Int.neg_neg]
    rw [hneg]
    omega

section Results
variable {n : Nat}

/-- What `measurements` writes about an object. -/
def sampleOf (sendTimestamps : Fin n → Int) (i : Fin n) (entry : Int × Int × Int) : Sample :=
  ⟨microseconds (entry.1 - sendTimestamps i),
    microseconds (sendTimestamps i - sendTimestamps ⟨0, i.pos⟩), entry.2.1, entry.2.2⟩

/-- The samples of the objects that have been heard of: after the first ones, and a microsecond after
they were put at least. -/
def recorded (sendTimestamps : Fin n → Int) (heard : List Received) : List Sample :=
  (List.finRange n).filterMap fun (i : Fin n) => (lastHeard heard i).bind fun x =>
    if skipObjects ≤ (i : Nat) ∧ sendTimestamps i + 1000 ≤ x.2 then
      some (sampleOf sendTimestamps i (entryOf x))
    else none

theorem zipIdx_finRange : (List.finRange n).zipIdx = (List.finRange n).map fun (i : Fin n) => (i, (i : Nat)) := by
  apply List.ext_getElem
  · simp
  · intro j h₁ h₂
    simp

/-- The script is after the samples of the objects that have been heard of. -/
theorem keptOf_samples {sendTimestamps : Fin n → Int} (hsend : ∀ i, 0 ≤ sendTimestamps i)
    {heard : List Received} {a b : Arrays n} (ha : ∀ i, a.rcvTimestamps i = 0)
    (hb : ∀ i : Fin n, b.entry i = ((lastHeard heard i).map entryOf).getD (a.entry i)) :
    keptOf ((List.finRange n).map fun i => sampleOf sendTimestamps i (b.entry i)).zipIdx =
      recorded sendTimestamps heard := by
  have hkept : keptOf ((List.finRange n).map fun i => sampleOf sendTimestamps i (b.entry i)).zipIdx =
      (List.finRange n).filterMap fun (i : Fin n) =>
        if keeps (sampleOf sendTimestamps i (b.entry i), (i : Nat)) then
          some (sampleOf sendTimestamps i (b.entry i))
        else none := by
    rw [keptOf, ← List.filterMap_eq_map, List.filterMap_filter, List.zipIdx_map, zipIdx_finRange,
      List.map_map, List.filterMap_map]
    rfl
  rw [hkept, recorded]
  refine List.filterMap_congr fun i _ => ?_
  rw [hb]
  cases hlast : lastHeard heard i with
  | none =>
    have hnot : ¬ 1000 ≤ (a.entry i).1 - sendTimestamps i := by
      have hzero : (a.entry i).1 = 0 := ha i
      have := hsend i
      omega
    have hkeeps : keeps (sampleOf sendTimestamps i (a.entry i), (i : Nat)) = false := by
      simp [keeps, sampleOf, microseconds_pos, hnot]
    simp [hkeeps]
  | some x =>
    have hkeeps : keeps (sampleOf sendTimestamps i (entryOf x), (i : Nat)) =
        decide (skipObjects ≤ (i : Nat) ∧ sendTimestamps i + 1000 ≤ x.2) := by
      have hiff : 1000 ≤ x.2 - sendTimestamps i ↔ sendTimestamps i + 1000 ≤ x.2 := by omega
      simp [keeps, sampleOf, entryOf, microseconds_pos, hiff]
    simp [hkeeps]

end Results

/-- What is in the header besides the parameters. -/
structure Settings where
  objectRate : Int
  affinityLogic : Int
  numShards : Int
  runMode : List Char
  runMode_line : '\n' ∉ runMode ∧ '\r' ∉ runMode

def Deployment.numObjects (d : Deployment) : Nat := d.benchmarkTime.toNat

/-- What a client writes to the results file. -/
def ClientConfig.run (c : ClientConfig) (d : Deployment) (b : Settings) (h : 0 < d.benchmarkTime)
    (sendTimestamps : Fin d.numObjects → Int) (a : Arrays d.numObjects) : Run where
  clientId := c.id
  objectSize := c.objectSize
  objectRate := b.objectRate
  entryPartSize := c.parameters.entryPartSize
  numEntryParts := c.parameters.numEntryParts
  dataPartSize := c.parameters.dataPartSize
  numDataParts := c.parameters.numDataParts
  affinityLogic := b.affinityLogic
  numShards := b.numShards
  numCategories := (d.numCategories : Nat)
  benchmarkTime := d.benchmarkTime
  runMode := b.runMode
  samples := (List.finRange d.numObjects).map fun i => sampleOf sendTimestamps i (a.entry i)
  samples_ne_nil := by
    have hpos : d.numObjects ≠ 0 := by
      unfold Deployment.numObjects
      omega
    simpa [List.finRange_eq_nil_iff] using hpos
  runMode_line := b.runMode_line

/-- Messages come from packets that have been sent to the socket of the client. -/
def HeardFrom (s : System) (c : ClientConfig) (anyPort : ℕ+) (heard : List Received) : Prop :=
  ∀ r ∈ heard, ∀ m, r.message = some m → ∃ key n, ⟨.upcall key, .done (some n)⟩ ∈ s.processes ∧
    n.address = c.ip ∧ n.port = listenPort anyPort c.id ∧ m = ⟨n.objectId, n.category, n.nodeId⟩

variable {d : Deployment} {s₀ : Store} {s : System} {c : ClientConfig}

/-- The packet of the return stage is the only one for its object. -/
theorem packets_of_mem (h₀ : HasConfig s₀) (h : d.Reached s₀ s) {k clientId objectId : Nat}
    (hk : k < (d.numCategories : Nat)) {n : Notification}
    (hx : ⟨.upcall (Key.outputCategory k clientId objectId).path, .done (some n)⟩ ∈ s.processes) :
    d.packets s clientId objectId = [n] := by
  have hmem : n ∈ d.packets s clientId objectId := by
    refine List.mem_filterMap.mpr ⟨_, hx, ?_⟩
    simp [stage_path, Key.stage, hk]
  have hlength : (d.packets s clientId objectId).length ≤ 1 := by
    have hputs := puts_eq h₀ h clientId objectId
    have hone := puts_le_one h₀ h clientId objectId
    omega
  obtain ⟨n', hn'⟩ := List.length_eq_one_iff.mp
    (Nat.le_antisymm hlength (List.length_pos_of_mem hmem))
  rw [hn', List.mem_singleton] at hmem
  rw [hn', hmem]

/-- No two clients listen at one socket. -/
def Exclusive (d : Deployment) (c : ClientConfig) (anyPort : ℕ+) : Prop :=
  ∀ c' ∈ d.clients, c'.ip = c.ip → returnPort c'.id = listenPort anyPort c.id → c' = c

/-- A message that is heard says what the pipeline has found for an object of the client. -/
theorem message_right (h₀ : HasConfig s₀) (h : d.Reached s₀ s) {anyPort : ℕ+}
    (hsocket : Exclusive d c anyPort) {heard : List Received} (hheard : HeardFrom s c anyPort heard)
    {r : Received} (hr : r ∈ heard) {m : Message} (hm : r.message = some m) :
    ∃ o < d.numObjects, ∃ k < (d.numCategories : Nat), d.packets s c.id o = [d.notification c o k] ∧
      m = ⟨o, k, (d.notification c o k).nodeId⟩ := by
  obtain ⟨key, n, hx, haddress, hport, rfl⟩ := hheard r hr m hm
  obtain ⟨c', hc', o, k, ho, hk, rfl, rfl, _⟩ := (upcall_right h₀ h hx).2 n rfl
  obtain rfl := hsocket c' hc' haddress hport
  have ho' : o < d.numObjects := by
    unfold Deployment.numObjects
    omega
  exact ⟨o, ho', k, hk, packets_of_mem h₀ h hk hx, rfl⟩

theorem mem_of_lastHeard {heard : List Received} {objectId : Nat} {x : Message × Int}
    (h : lastHeard heard objectId = some x) :
    ∃ r ∈ heard, r.message = some x.1 ∧ x.1.objectId = objectId ∧ r.now = x.2 := by
  obtain ⟨r, hr, habout⟩ := List.mem_filterMap.mp (List.mem_of_getLast? h)
  unfold Received.about at habout
  split at habout
  · next m hm =>
    split at habout
    · next ho =>
      cases habout
      exact ⟨r, hr, hm, ho, rfl⟩
    · cases habout
  · cases habout

theorem lastHeard_right (h₀ : HasConfig s₀) (h : d.Reached s₀ s) {anyPort : ℕ+}
    (hsocket : Exclusive d c anyPort) {heard : List Received} (hheard : HeardFrom s c anyPort heard)
    {o : Nat} {x : Message × Int} (hx : lastHeard heard o = some x) :
    ∃ k < (d.numCategories : Nat), d.packets s c.id o = [d.notification c o k] ∧
      x.1 = ⟨o, k, (d.notification c o k).nodeId⟩ := by
  obtain ⟨r, hr, hm, ho, _⟩ := mem_of_lastHeard hx
  obtain ⟨o', _, k, hk, hpackets, hx'⟩ := message_right h₀ h hsocket hheard hr hm
  rw [hx'] at ho
  obtain rfl : o' = o := Int.ofNat.inj ho
  exact ⟨k, hk, hpackets, hx'⟩

/-- **The results file is right**, whatever the network loses, repeats or reorders: no message is
about an object that is not one of the client's, the script finds in the file the samples of the
objects that have been heard of, and each has what the only packet for its object says. -/
theorem recorded_right (d : Deployment) {s₀ : Store} (h₀ : HasConfig s₀) {s : System}
    (h : d.Reached s₀ s) {c : ClientConfig} {anyPort : ℕ+} (hsocket : Exclusive d c anyPort)
    {heard : List Received} (hheard : HeardFrom s c anyPort heard) (hpos : 0 < d.benchmarkTime)
    {sendTimestamps : Fin d.numObjects → Int} (hsend : ∀ i, 0 ≤ sendTimestamps i)
    (objCat objNodeId : Fin d.numObjects → Int) (b : Settings) {data : Data}
    {kept : Int → ExpConfig → List Sample} (hdata : Describes data kept) :
    ∃ a, listenNotifications ⟨fun _ => 0, objCat, objNodeId⟩ heard = some a ∧
      (∃ data', ((c.run d b hpos sendTimestamps a).lines.map fun line => line ++ ['\n']).foldlM readLine
          (data, .header) = .ok (data', .header) ∧
        Describes data' fun l e =>
          if l = b.affinityLogic ∧ e = (c.run d b hpos sendTimestamps a).expConfig then
            kept l e ++ recorded sendTimestamps heard
          else kept l e) ∧
      ∀ o x, lastHeard heard o = some x →
        ∃ k < (d.numCategories : Nat), d.packets s c.id o = [d.notification c o k] ∧
          x.1 = ⟨o, k, (d.notification c o k).nodeId⟩ := by
  have hbounds : ∀ r ∈ heard, ∀ m, r.message = some m →
      ∃ o < d.numObjects, m.objectId = (o : Nat) := by
    intro r hr m hm
    obtain ⟨o, ho, k, _, _, rfl⟩ := message_right h₀ h hsocket hheard hr hm
    exact ⟨o, ho, rfl⟩
  obtain ⟨a, hlisten, hentry⟩ := listen_entry hbounds ⟨fun _ => 0, objCat, objNodeId⟩
  refine ⟨a, hlisten, ⟨_, foldlM_lines _ data, ?_⟩, fun o x hx => lastHeard_right h₀ h hsocket hheard hx⟩
  have hkept := keptOf_samples hsend (fun _ => rfl) hentry
  have hdescribes := hdata.samples (c.run d b hpos sendTimestamps a).header
    (c.run d b hpos sendTimestamps a).samples.zipIdx
  have hsamples : keptOf (c.run d b hpos sendTimestamps a).samples.zipIdx = recorded sendTimestamps heard :=
    hkept
  rw [hsamples] at hdescribes
  exact hdescribes

theorem forall₂_filterMap {α β : Type} {R : α → β → Prop} {keep : α → Bool} {f : α → Option β} {l : List α}
    (hkeep : ∀ x ∈ l, keep x = true → ∃ y, f x = some y ∧ R x y)
    (hdrop : ∀ x ∈ l, keep x = false → f x = none) : List.Forall₂ R (l.filter keep) (l.filterMap f) := by
  induction l with
  | nil => exact .nil
  | cons x l ih =>
    have htail := ih (fun y hy => hkeep y (List.mem_cons_of_mem _ hy))
      fun y hy => hdrop y (List.mem_cons_of_mem _ hy)
    cases hx : keep x with
    | true =>
      obtain ⟨y, hy, hR⟩ := hkeep x (List.mem_cons_self ..) hx
      rw [List.filter_cons_of_pos hx, List.filterMap_cons_some hy]
      exact .cons hR htail
    | false =>
      rw [List.filter_cons_of_neg (by simp [hx]), List.filterMap_cons_none (hdrop x (List.mem_cons_self ..) hx)]
      exact htail

theorem recorded_at_rest (h₀ : HasConfig s₀) (h : d.Reached s₀ s) (hrest : ∀ s', ¬ d.Step s s')
    (hc : c ∈ d.clients) (hsized : c.Sized) {anyPort : ℕ+} (hsocket : Exclusive d c anyPort)
    {heard : List Received} (hheard : HeardFrom s c anyPort heard)
    {sendTimestamps : Fin d.numObjects → Int}
    (hall : ∀ i : Fin d.numObjects, ∀ n ∈ d.packets s c.id i,
      ∃ x, lastHeard heard i = some x ∧ sendTimestamps i + 1000 ≤ x.2) :
    List.Forall₂ (fun (i : Fin d.numObjects) (sample : Sample) => 0 < sample.latency ∧
        ∃ k < (d.numCategories : Nat), d.packets s c.id i = [d.notification c i k] ∧ sample.category = k)
      ((List.finRange d.numObjects).filter fun i => decide (skipObjects ≤ (i : Nat)))
      (recorded sendTimestamps heard) := by
  refine forall₂_filterMap (fun i _ hkeep => ?_) fun i _ hdrop => ?_
  · have hi : ((i : Nat) : Int) < d.benchmarkTime := by
      have := i.isLt
      unfold Deployment.numObjects at this
      omega
    obtain ⟨k, hk, hpackets⟩ := notified_at_rest h₀ h hrest hc hsized hi
    obtain ⟨x, hx, htime⟩ := hall i _ (hpackets ▸ List.mem_singleton_self _)
    obtain ⟨k', hk', hpackets', hmessage⟩ := lastHeard_right h₀ h hsocket hheard hx
    have hskip : skipObjects ≤ ((i : Nat) : Int) := of_decide_eq_true hkeep
    rw [hx, Option.bind_some, if_pos ⟨hskip, htime⟩]
    refine ⟨_, rfl, microseconds_pos.mpr ?_, k', hk', hpackets', ?_⟩
    · show 1000 ≤ x.2 - sendTimestamps i
      omega
    · show x.1.category = k'
      rw [hmessage]
  · have hskip : ¬ skipObjects ≤ ((i : Nat) : Int) := of_decide_eq_false hdrop
    cases lastHeard heard i with
    | none => rfl
    | some x => exact if_neg fun hkeep => hskip hkeep.1

/-- Each packet for an object of the client, at this time. -/
def heardAll (d : Deployment) (s : System) (c : ClientConfig) (now : Int) : List Received :=
  (List.range d.numObjects).flatMap fun o =>
    (d.packets s c.id o).map fun n => ⟨some ⟨n.objectId, n.category, n.nodeId⟩, now⟩

theorem mem_heardAll {now : Int} {r : Received} : r ∈ heardAll d s c now ↔
    ∃ o < d.numObjects, ∃ n ∈ d.packets s c.id o, ⟨some ⟨n.objectId, n.category, n.nodeId⟩, now⟩ = r := by
  simp only [heardAll, List.mem_flatMap, List.mem_range, List.mem_map]

theorem heardFrom_heardAll (h₀ : HasConfig s₀) (h : d.Reached s₀ s) (hc : c ∈ d.clients)
    (hport : PortFits c.id) (anyPort : ℕ+) (now : Int) :
    HeardFrom s c anyPort (heardAll d s c now) := by
  intro r hr m hm
  obtain ⟨o, _, n, hn, rfl⟩ := mem_heardAll.mp hr
  obtain ⟨key, hx, _⟩ := process_of_packet hn
  obtain ⟨c', hc', hid, k, _, rfl⟩ := mem_packets h₀ h hn
  obtain rfl : c' = c := eq_of_id_eq hc' hc hid
  exact ⟨key, _, hx, rfl, returnPort_of_fits hport anyPort, (Option.some.inj hm).symm⟩

theorem lastHeard_heardAll (h₀ : HasConfig s₀) (h : d.Reached s₀ s) (now : Int) (i : Fin d.numObjects)
    {n : Notification} (hn : n ∈ d.packets s c.id i) :
    ∃ x, lastHeard (heardAll d s c now) i = some x ∧ x.2 = now := by
  have hmem : (⟨some ⟨n.objectId, n.category, n.nodeId⟩, now⟩ : Received) ∈ heardAll d s c now :=
    mem_heardAll.mpr ⟨i, i.isLt, n, hn, rfl⟩
  obtain ⟨c', _, _, k, _, rfl⟩ := mem_packets h₀ h hn
  have habout : Received.about ⟨some ⟨i, k, (d.notification c' i k).nodeId⟩, now⟩ i =
      some (⟨i, k, (d.notification c' i k).nodeId⟩, now) := if_pos rfl
  have hne : (heardAll d s c now).filterMap (fun r => r.about i) ≠ [] :=
    List.ne_nil_of_mem (List.mem_filterMap.mpr ⟨_, hmem, habout⟩)
  obtain ⟨x, hx⟩ := Option.isSome_iff_exists.mp (List.getLast?_isSome.mpr hne)
  obtain ⟨r, hr, _, _, hnow⟩ := mem_of_lastHeard hx
  obtain ⟨_, _, _, _, rfl⟩ := mem_heardAll.mp hr
  exact ⟨x, hx, hnow.symm⟩

/-! ### More objects than are skipped -/

def manyObjects : Deployment := {oneObject with benchmarkTime := 501, objects_lt := by decide}

theorem exclusive_many : Exclusive manyObjects oneClient 50000 := fun _ hc _ _ => List.mem_singleton.mp hc

theorem exists_rest_many : ∃ s, manyObjects.Reached noParts s ∧ ∀ s', ¬ manyObjects.Step s s' :=
  Transition.exists_rest (acc_start manyObjects noParts)

def noGrouping : Settings := ⟨50, 0, 1, "release".toList, by decide⟩

/-- When the objects were put. -/
def sentMany : Fin manyObjects.numObjects → Int := fun i => 5000 + i

/-- Until then the client listens. -/
def heardMany (s : System) : List Received := heardAll manyObjects s oneClient 90000

theorem heardMany_from {s : System} (h : manyObjects.Reached noParts s) :
    HeardFrom s oneClient 50000 (heardMany s) :=
  heardFrom_heardAll hasConfig_noParts h (List.mem_singleton_self oneClient) (by decide) 50000 90000

theorem heardMany_times {s : System} (h : manyObjects.Reached noParts s) (i : Fin manyObjects.numObjects) :
    ∀ n ∈ manyObjects.packets s oneClient.id i,
      ∃ x, lastHeard (heardMany s) i = some x ∧ sentMany i + 1000 ≤ x.2 := by
  intro n hn
  obtain ⟨x, hx, hnow⟩ := lastHeard_heardAll hasConfig_noParts h 90000 i hn
  have hi : (i : Nat) < 501 := i.isLt
  refine ⟨x, hx, ?_⟩
  rw [hnow, sentMany]
  omega

theorem recordedMany_ne_nil {s : System} (h : manyObjects.Reached noParts s)
    (hrest : ∀ s', ¬ manyObjects.Step s s') : recorded sentMany (heardMany s) ≠ [] := by
  have hkept := recorded_at_rest hasConfig_noParts h hrest (List.mem_singleton_self oneClient) (by decide)
    exclusive_many (heardMany_from h) (heardMany_times h)
  have hlast : (⟨500, by decide⟩ : Fin manyObjects.numObjects) ∈
      (List.finRange manyObjects.numObjects).filter fun (i : Fin manyObjects.numObjects) =>
        decide (skipObjects ≤ ((i : Nat) : Int)) :=
    List.mem_filter.mpr ⟨List.mem_finRange _, by decide⟩
  intro hnil
  rw [hnil, List.forall₂_nil_right_iff] at hkept
  exact List.ne_nil_of_mem hlast hkept

theorem recorded_right_many :
    ∃ s, manyObjects.Reached noParts s ∧ recorded sentMany (heardMany s) ≠ [] ∧
      ∃ a, listenNotifications ⟨fun _ => 0, fun _ => 17, fun _ => 17⟩ (heardMany s) = some a ∧
        (∃ data', ((oneClient.run manyObjects noGrouping (by decide) sentMany a).lines.map
            fun line => line ++ ['\n']).foldlM readLine (Dict.empty, .header) = .ok (data', .header) ∧
          Describes data' fun l e =>
            if l = noGrouping.affinityLogic ∧
                e = (oneClient.run manyObjects noGrouping (by decide) sentMany a).expConfig then
              recorded sentMany (heardMany s)
            else []) ∧
        ∀ o x, lastHeard (heardMany s) o = some x →
          ∃ k < (manyObjects.numCategories : Nat),
            manyObjects.packets s oneClient.id o = [manyObjects.notification oneClient o k] ∧
              x.1 = ⟨o, k, (manyObjects.notification oneClient o k).nodeId⟩ := by
  obtain ⟨s, h, hrest⟩ := exists_rest_many
  have hsend : ∀ i, 0 ≤ sentMany i := fun i => by rw [sentMany]; omega
  have hright := recorded_right manyObjects hasConfig_noParts h exclusive_many (heardMany_from h)
    (by decide) hsend (fun _ => 17) (fun _ => 17) noGrouping describes_empty
  simp only [List.nil_append] at hright
  exact ⟨s, h, recordedMany_ne_nil h hrest, hright⟩

end CascadePlayground.Affinity
