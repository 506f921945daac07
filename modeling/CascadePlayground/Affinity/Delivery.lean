import CascadePlayground.Affinity.System

/-! What the pipeline delivers.

An object that a client has put is in one place at a time: with the entry stage, with the
category stage, with the return stage, or in a packet that has been sent. So no object is
lost on the way and none is notified twice (`object_in_one_place`). No stage fails, and a
packet says what it should (`packets_right`). All of it comes to an end, whatever the order
of the calls, and then there is one packet for every object (`all_delivered`); that is as
long as the buffers of the clients can be filled and the stacks of the stages have room
for arrays of as many elements as there are parts. -/
namespace CascadePlayground.Affinity
open Text Program

/-! ### Places -/

inductive Stage where
  | entry
  | category
  | returning
deriving DecidableEq, Repr

/-- The stage of this object that a process is an upcall of. -/
def Origin.stage (numCategories : ℕ+) (clientId objectId : Nat) : Origin → Option Stage
  | .client _ => none
  | .upcall key =>
    if key = (Key.object clientId objectId).path then some .entry
    else if (List.range numCategories).any fun k => key = (Key.newCategory k clientId objectId).path then
      some .category
    else if (List.range numCategories).any fun k => key = (Key.outputCategory k clientId objectId).path then
      some .returning
    else none

namespace Deployment
variable (d : Deployment) (s : System) (clientId objectId : Nat)

/-- How often the object has been put: each put has started an entry stage (`count_puts`). -/
def puts : Nat :=
  s.processes.countP fun x => x.tag.stage d.numCategories clientId objectId = some .entry

/-- How many stages have the object and have not passed it on. -/
def inStages : Nat :=
  s.processes.countP fun x =>
    (x.tag.stage d.numCategories clientId objectId).isSome && !x.program.isDone

/-- The packets that have been sent for the object. -/
def packets : List Notification :=
  s.processes.filterMap fun x =>
    match x.tag.stage d.numCategories clientId objectId, x.program with
    | some .returning, .done packet => packet
    | _, _ => none

end Deployment

section Stage
variable {numCategories : ℕ+} {clientId objectId : Nat}

theorem path_eq_iff {k k' : Key} : k.path = k'.path ↔ k = k' := ⟨Key.path_injective, congrArg Key.path⟩

/-- The stage, read off the key. -/
def Key.stage (numCategories : ℕ+) (clientId objectId : Nat) : Key → Option Stage
  | .object c o => if c = clientId ∧ o = objectId then some .entry else none
  | .newCategory k c o =>
    if k < (numCategories : Nat) ∧ c = clientId ∧ o = objectId then some .category else none
  | .outputCategory k c o =>
    if k < (numCategories : Nat) ∧ c = clientId ∧ o = objectId then some .returning else none
  | _ => none

theorem stage_path (k : Key) :
    (Origin.upcall k.path).stage numCategories clientId objectId = k.stage numCategories clientId objectId := by
  simp only [Origin.stage, path_eq_iff, List.any_eq_true, List.mem_range, decide_eq_true_eq]
  cases k <;> simp [Key.stage]

theorem stage_entryDataKey (i : List Char) :
    (Origin.upcall (entryDataKey i)).stage numCategories clientId objectId = none := by
  have hne : ∀ k : Key, k.family ≠ .entryData → entryDataKey i ≠ k.path := by
    intro k hk h
    apply hk
    rw [← family_path, ← h]
    rfl
  have hobject := hne (.object clientId objectId) Family.noConfusion
  have hnew := fun k => hne (.newCategory k clientId objectId) Family.noConfusion
  have houtput := fun k => hne (.outputCategory k clientId objectId) Family.noConfusion
  simp [Origin.stage, hobject, hnew, houtput]

end Stage

variable {d : Deployment} {s s' : System} {s₀ : Store} {clientId objectId : Nat}

/-! ### Every task is where it should be -/

/-- The store is in order, and every task where it should be. -/
def Sound (d : Deployment) (s : System) : Prop :=
  HasConfig s.shared ∧ ∀ x ∈ s.processes, TaskAt d s.shared x

theorem sound_step : Transition.Preserved d.Step (Sound d) := by
  refine Pool.keepsAll_step (J := HasConfig) (P := fun x s => TaskAt d s x) (R := Keeping d)
    (fun x s s' hs h => h.keeping hs) fun tag op k s hs h => ?_
  have hcall := h.call hs
  have hkeep := keeping_act hcall.proper s
  exact ⟨hs.keeping hkeep, hkeep, hcall.self, hcall.started⟩

theorem Sound.reached (h₀ : HasConfig s₀) (h : d.Reached s₀ s) : Sound d s := by
  refine sound_step.run h ⟨h₀, fun x hx => ?_⟩
  obtain ⟨c, hc, rfl⟩ := List.mem_map.mp hx
  exact .client hc (clientAt_main d c s₀)

/-! ### An object is in one place -/

/-- How an object counts in a process: once it has been put, and is not with a stage, and is in no
packet, it is missing. -/
def missing (numCategories : ℕ+) (clientId objectId : Nat) (x : Task) : Int :=
  match x.tag.stage numCategories clientId objectId, x.program.isDone with
  | some .entry, true => 1
  | some .category, false => -1
  | some .returning, _ => -1
  | _, _ => 0

theorem missing_of_none {x : Task} (h : x.tag.stage d.numCategories clientId objectId = none) :
    missing d.numCategories clientId objectId x = 0 := by
  rw [missing, h]

/-- What a call takes from one stage it gives to the next. -/
theorem Effect.missing {tag : Origin} {m : Client (Option Notification)} {ys : List Task} {op : Op}
    {k : Reply op → Client (Option Notification)} (h : Effect d tag m ys) :
    Affinity.missing d.numCategories clientId objectId ⟨tag, m⟩ +
        (ys.map (Affinity.missing d.numCategories clientId objectId)).sum =
      Affinity.missing d.numCategories clientId objectId ⟨tag, .call op k⟩ := by
  have hcall : (Program.call op k).isDone = false := rfl
  have hdone : (Program.done none : Client (Option Notification)).isDone = true := rfl
  cases h with
  | setup c m h =>
    have hys : ys.map (Affinity.missing d.numCategories clientId objectId) = ys.map fun _ => 0 := by
      refine List.map_congr_left fun y hy => missing_of_none ?_
      obtain ⟨i, hi⟩ := h y hy
      rw [hi, stage_entryDataKey]
    rw [hys, List.map_const', List.sum_replicate, smul_zero]
    rfl
  | object c o m hm' =>
    simp only [Affinity.missing, stage_path, Key.stage, hm', List.map_cons, List.map_nil]
    by_cases hid : c = clientId ∧ o = objectId
    · rw [if_pos hid]
      rfl
    · rw [if_neg hid]
      rfl
  | read key hm => simp only [Affinity.missing, hm, hcall, List.map_nil, List.sum_nil, add_zero]
  | newCategory c o hk hm' =>
    simp only [Affinity.missing, stage_path, Key.stage, hm', hcall, hdone, hk, true_and, List.map_cons,
      List.map_nil]
    by_cases hid : c = clientId ∧ o = objectId
    · simp only [if_pos hid]
      rfl
    · simp only [if_neg hid]
      rfl
  | outputCategory c o hk m' =>
    simp only [Affinity.missing, stage_path, Key.stage, hcall, hdone, hk, true_and, List.map_cons,
      List.map_nil]
    by_cases hid : c = clientId ∧ o = objectId
    · simp only [if_pos hid]
      rfl
    · simp only [if_neg hid]
      rfl
  | returning c o hk m =>
    simp only [Affinity.missing, stage_path, Key.stage, hk, true_and, List.map_nil, List.sum_nil, add_zero]
    by_cases hid : c = clientId ∧ o = objectId
    · simp only [if_pos hid]
    · simp only [if_neg hid]

theorem total_missing_step :
    Transition.Preserved d.Step fun s => Sound d s ∧
      s.total (missing d.numCategories clientId objectId) = 0 := by
  intro s s' hs hstep
  refine ⟨sound_step s s' hs.1 hstep, ?_⟩
  obtain ⟨tag, op, k, hmem, htotal⟩ := Pool.total_step (missing d.numCategories clientId objectId) hstep
  have heffect : missing d.numCategories clientId objectId ⟨tag, k (act op s.shared).1⟩ +
      ((d.upcalls op).map (missing d.numCategories clientId objectId)).sum =
        missing d.numCategories clientId objectId ⟨tag, .call op k⟩ :=
    ((hs.1.2 _ hmem).call hs.1.1).effect.missing
  omega

theorem total_missing_start (d : Deployment) (s₀ : Store) (clientId objectId : Nat) :
    (d.start s₀).total (missing d.numCategories clientId objectId) = 0 := by
  have hstart : (d.start s₀).processes.map (missing d.numCategories clientId objectId) =
      d.clients.map fun _ => 0 :=
    List.map_map.trans (List.map_congr_left fun c _ => rfl)
  rw [Pool.total, hstart, List.map_const', List.sum_replicate, smul_zero]

/-- No upcall fails, and one of the return stage sends a packet. -/
theorem TaskAt.done_of_returning {st : Store} {tag : Origin} {packet : Option Notification}
    (h : TaskAt d st ⟨tag, .done packet⟩)
    (hstage : tag.stage d.numCategories clientId objectId = some .returning) : packet.isSome := by
  cases h with
  | client hc hm => cases hstage
  | dropped i =>
    rw [stage_entryDataKey] at hstage
    cases hstage
  | entry hc ho ha hm => cases hm
  | entryDone hc ho =>
    rw [stage_path, Key.stage] at hstage
    split at hstage <;> cases hstage
  | category hc ho hk ha hm => cases hm
  | categoryDone hc ho hk =>
    rw [stage_path, Key.stage] at hstage
    split at hstage <;> cases hstage
  | returning hc ho hk ha hs hm =>
    have hpacket : packet = some _ := hm
    rw [hpacket]
    rfl

theorem Sound.puts_eq (h : Sound d s) (clientId objectId : Nat) :
    (d.puts s clientId objectId : Int) =
      d.inStages s clientId objectId + (d.packets s clientId objectId).length +
        s.total (missing d.numCategories clientId objectId) := by
  obtain ⟨st, l⟩ := s
  replace h := h.2
  unfold Pool.total
  induction l with
  | nil => rfl
  | cons x l ih =>
    have htail := ih fun y hy => h y (List.mem_cons_of_mem _ hy)
    have hx := h x (List.mem_cons_self ..)
    obtain ⟨tag, m⟩ := x
    simp only [Deployment.puts, Deployment.inStages, Deployment.packets, List.countP_cons,
      List.filterMap_cons, List.map_cons, List.sum_cons, missing] at htail ⊢
    cases hstage : tag.stage d.numCategories clientId objectId with
    | none =>
      simp
      omega
    | some stage =>
      cases m with
      | done packet =>
        cases stage with
        | returning =>
          obtain ⟨n, rfl⟩ := Option.isSome_iff_exists.mp (hx.done_of_returning hstage)
          simp
          omega
        | _ =>
          simp
          omega
      | call op k =>
        cases stage
        all_goals
          simp
          omega
      | fail e =>
        cases stage
        all_goals
          simp
          omega

theorem puts_eq (h₀ : HasConfig s₀) (h : d.Reached s₀ s) (clientId objectId : Nat) :
    d.puts s clientId objectId =
      d.inStages s clientId objectId + (d.packets s clientId objectId).length := by
  obtain ⟨hsound, htotal⟩ := total_missing_step.run h
    ⟨Sound.reached h₀ .refl, total_missing_start d s₀ clientId objectId⟩
  have hputs := hsound.puts_eq clientId objectId
  omega

/-! ### An object is put once -/

def Origin.client? : Origin → Option Nat
  | .client clientId => some clientId
  | .upcall _ => none

theorem upcalls_tag {op : Op} {y : Task} (h : y ∈ d.upcalls op) : ∃ key, y.tag = .upcall key := by
  cases op with
  | put key value =>
    obtain ⟨m, _, rfl⟩ := List.mem_map.mp h
    exact ⟨key, rfl⟩
  | _ => cases h

/-- Clients are started at the beginning only. -/
theorem clients_reached (h : d.Reached s₀ s) :
    (s.processes.map Process.tag).filterMap Origin.client? = d.clients.map ClientConfig.id := by
  have hstep : Transition.Preserved d.Step fun s =>
      (s.processes.map Process.tag).filterMap Origin.client? = d.clients.map ClientConfig.id := by
    intro s s' hs hstep
    obtain ⟨op, htags⟩ := Pool.Step.tags hstep
    have hnone : ((d.upcalls op).map Process.tag).filterMap Origin.client? = [] := by
      refine List.filterMap_eq_nil_iff.mpr fun tag htag => ?_
      obtain ⟨y, hy, rfl⟩ := List.mem_map.mp htag
      obtain ⟨key, hkey⟩ := upcalls_tag hy
      rw [hkey]
      rfl
    rw [htags, List.filterMap_append, hs, hnone, List.append_nil]
  refine hstep.run h ?_
  rw [Deployment.start, List.map_map, List.filterMap_map, ← List.filterMap_eq_map]
  rfl

/-- Not of the same client. -/
def Apart (x y : Task) : Prop := ∀ clientId, x.tag = .client clientId → y.tag ≠ .client clientId

theorem apart_reached (h : d.Reached s₀ s) : s.processes.Pairwise Apart := by
  have hnodup := d.distinct
  rw [← clients_reached h, List.filterMap_map] at hnodup
  refine (List.pairwise_filterMap.mp hnodup).imp fun {x y} hxy clientId hx hy => ?_
  refine hxy clientId ?_ clientId ?_ rfl
  · rw [Function.comp_apply, hx]
    rfl
  · rw [Function.comp_apply, hy]
    rfl

/-- A client is one process. -/
theorem client_unique (h : d.Reached s₀ s) {x y : Task} (hx : x ∈ s.processes) (hy : y ∈ s.processes)
    (hxtag : x.tag = .client clientId) (hytag : y.tag = .client clientId) : x = y := by
  have hsymm : Std.Symm Apart := ⟨fun x y h clientId hy hx => h clientId hx hy⟩
  by_contra hne
  exact (apart_reached h).forall hx hy hne clientId hxtag hytag

/-- The objects that the client has put, and those it has yet to put, are its objects. -/
def Progress (d : Deployment) (s : System) (c : ClientConfig) : Prop :=
  ∃ l m, ⟨.client c.id, m⟩ ∈ s.processes ∧ ClientAt d c s.shared l m ∧
    ∀ o, d.puts s c.id o + l.count o = d.objectIds.count o

/-- The upcalls of an object that a call starts at the entry stage. -/
def entries (numCategories : ℕ+) (clientId objectId : Nat) (ys : List Task) : Nat :=
  ys.countP fun y => y.tag.stage numCategories clientId objectId = some .entry

theorem entries_of_setup {ys : List Task} (h : ∀ y ∈ ys, ∃ i, y.tag = .upcall (entryDataKey i)) :
    entries d.numCategories clientId objectId ys = 0 := by
  refine List.countP_eq_zero.mpr fun y hy => ?_
  obtain ⟨i, hi⟩ := h y hy
  rw [hi, stage_entryDataKey]
  simp

theorem entries_object (c o : Nat) (m : Client (Option Notification)) :
    entries d.numCategories clientId objectId [⟨.upcall (Key.object c o).path, m⟩] =
      if c = clientId ∧ o = objectId then 1 else 0 := by
  simp only [entries, List.countP_singleton, stage_path, Key.stage]
  split <;> rfl

/-- Only the client itself puts its objects. -/
theorem Effect.entries_eq_zero {tag : Origin} {m : Client (Option Notification)} {ys : List Task}
    (h : Effect d tag m ys) (hne : tag ≠ .client clientId) :
    entries d.numCategories clientId objectId ys = 0 := by
  cases h with
  | setup c m h => exact entries_of_setup h
  | object c o m hm' =>
    rw [entries_object, if_neg]
    rintro ⟨rfl, _⟩
    exact hne rfl
  | read key hm => rfl
  | newCategory c o hk hm' =>
    simp only [entries, List.countP_singleton, stage_path, Key.stage]
    split <;> rfl
  | outputCategory c o hk m' =>
    simp only [entries, List.countP_singleton, stage_path, Key.stage]
    split <;> rfl
  | returning c o hk m => rfl

/-- Nor do the puts of other keys start one. -/
theorem entries_of_key {key : List Char} {value : Blob} (hne : key ≠ (Key.object clientId objectId).path) :
    entries d.numCategories clientId objectId (d.upcalls (.put key value)) = 0 := by
  refine List.countP_eq_zero.mpr fun y hy => ?_
  obtain ⟨m, _, rfl⟩ := List.mem_map.mp hy
  simp only [Origin.stage, if_neg hne]
  split
  · simp
  · split <;> simp

theorem puts_start (s₀ : Store) : d.puts (d.start s₀) clientId objectId = 0 := by
  refine List.countP_eq_zero.mpr fun x hx => ?_
  obtain ⟨c, _, rfl⟩ := List.mem_map.mp hx
  simp [Origin.stage]

theorem progress_start (s₀ : Store) {c : ClientConfig} (hc : c ∈ d.clients) :
    Progress d (d.start s₀) c := by
  refine ⟨d.objectIds, d.main c, List.mem_map_of_mem hc, clientAt_main d c s₀, fun o => ?_⟩
  rw [puts_start, Nat.zero_add]

theorem progress_step (h₀ : HasConfig s₀) (h : d.Reached s₀ s) {c : ClientConfig} (hc : c ∈ d.clients)
    (hprogress : Progress d s c) (hstep : d.Step s s') : Progress d s' c := by
  obtain ⟨l, m, hmem, hat, hputs⟩ := hprogress
  have hsound := Sound.reached h₀ h
  obtain ⟨before, tag, op, k, after, hp, rfl⟩ := hstep.split
  have hcaller : ⟨tag, .call op k⟩ ∈ s.processes := by
    rw [hp]
    simp
  have hcall := (hsound.2 _ hcaller).call hsound.1
  have hafter : ∀ o, d.puts ⟨(act op s.shared).2,
      before ++ ⟨tag, k (act op s.shared).1⟩ :: after ++ d.upcalls op⟩ c.id o =
        d.puts s c.id o + entries d.numCategories c.id o (d.upcalls op) := by
    intro o
    simp only [Deployment.puts, entries, hp, List.countP_append, List.countP_cons]
  by_cases htag : tag = .client c.id
  · subst htag
    have hm := client_unique h hmem hcaller rfl rfl
    obtain rfl : m = .call op k := congrArg Process.program hm
    rcases hat.call hc hsound.1 with ⟨hop | rfl, hat'⟩ | ⟨ha, o, l', value, rfl, rfl, ho, hat'⟩
    · have hentries : ∀ o, entries d.numCategories c.id o (d.upcalls op) = 0 := fun o =>
        entries_of_setup fun y hy => (setupOp_upcalls hop y hy).imp fun i hi => congrArg Process.tag hi
      refine ⟨l, _, by simp, hat', fun o => ?_⟩
      rw [hafter, hentries, Nat.add_zero, hputs]
    · refine ⟨l, _, by simp, hat', fun o => ?_⟩
      rw [hafter, upcalls_clientData, ← hputs]
      rfl
    · -- the next of its objects
      refine ⟨l', _, by simp, hat', fun o' => ?_⟩
      have hcons := hputs o'
      rw [List.count_cons] at hcons
      rw [hafter, upcalls_object, entries_object, ← hcons]
      by_cases ho' : o = o'
      · simp [ho']
        omega
      · simp [ho']
  · have hkeep := keeping_act (d := d) hcall.proper s.shared
    refine ⟨l, m, ?_, hat.keeping hkeep, fun o => ?_⟩
    · rw [hp, List.mem_append, List.mem_cons] at hmem
      rcases hmem with hmem | hmem | hmem
      · simp [hmem]
      · exact absurd (congrArg Process.tag hmem).symm htag
      · simp [hmem]
    · rw [hafter, hcall.effect.entries_eq_zero htag, Nat.add_zero, hputs]

theorem progress_reached (h₀ : HasConfig s₀) (h : d.Reached s₀ s) {c : ClientConfig}
    (hc : c ∈ d.clients) : Progress d s c := by
  induction h with
  | refl => exact progress_start s₀ hc
  | tail hreached hstep ih => exact progress_step h₀ hreached hc ih hstep

theorem puts_eq_zero (h₀ : HasConfig s₀) (h : d.Reached s₀ s)
    (hnone : ∀ c ∈ d.clients, c.id ≠ clientId) : d.puts s clientId objectId = 0 := by
  refine List.countP_eq_zero.mpr fun x hx hstage => ?_
  have hat := (Sound.reached h₀ h).2 x hx
  have hentry : ∀ c ∈ d.clients, ∀ o,
      (Origin.upcall (Key.object c.id o).path).stage d.numCategories clientId objectId = none := by
    intro c hc o
    rw [stage_path, Key.stage, if_neg fun h => hnone c hc h.1]
  cases hat with
  | client hc hm => cases of_decide_eq_true hstage
  | dropped i => simp [stage_entryDataKey] at hstage
  | entry hc ho ha hm => simp [hentry _ hc] at hstage
  | entryDone hc ho => simp [hentry _ hc] at hstage
  | category hc ho hk ha hm =>
    simp only [stage_path, Key.stage] at hstage
    split at hstage <;> simp at hstage
  | categoryDone hc ho hk =>
    simp only [stage_path, Key.stage] at hstage
    split at hstage <;> simp at hstage
  | returning hc ho hk ha hs hm =>
    simp only [stage_path, Key.stage] at hstage
    split at hstage <;> simp at hstage

theorem puts_le_one (h₀ : HasConfig s₀) (h : d.Reached s₀ s) (clientId objectId : Nat) :
    d.puts s clientId objectId ≤ 1 := by
  by_cases hclient : ∃ c ∈ d.clients, c.id = clientId
  · obtain ⟨c, hc, rfl⟩ := hclient
    obtain ⟨l, m, _, _, hputs⟩ := progress_reached h₀ h hc
    have hcount : d.objectIds.count objectId ≤ 1 :=
      List.nodup_iff_count_le_one.mp List.nodup_range objectId
    have := hputs objectId
    omega
  · rw [puts_eq_zero h₀ h fun c hc hid => hclient ⟨c, hc, hid⟩]
    exact Nat.zero_le 1

/-- The puts of the object's key are those that `puts` counts. -/
theorem count_puts (h : d.Reached s₀ s) (clientId objectId : Nat) :
    (s.shared.map Prod.fst).count (Key.object clientId objectId).path =
      (s₀.map Prod.fst).count (Key.object clientId objectId).path + d.puts s clientId objectId := by
  refine Transition.Preserved.run (I := fun s : System =>
    (s.shared.map Prod.fst).count (Key.object clientId objectId).path =
      (s₀.map Prod.fst).count (Key.object clientId objectId).path + d.puts s clientId objectId)
    (fun s s' hs hstep => ?_) h ?_
  · obtain ⟨before, tag, op, k, after, hp, rfl⟩ := hstep.split
    -- a call keeps the tags, and adds those of the upcalls that it starts
    have hputs : d.puts ⟨(act op s.shared).2,
        before ++ ⟨tag, k (act op s.shared).1⟩ :: after ++ d.upcalls op⟩ clientId objectId =
          d.puts s clientId objectId + entries d.numCategories clientId objectId (d.upcalls op) := by
      simp only [Deployment.puts, entries, hp, List.countP_append, List.countP_cons]
    show ((act op s.shared).2.map Prod.fst).count _ = _
    rw [hputs, ← Nat.add_assoc, ← hs]
    cases op with
    | listKeys pool => rfl
    | get key => rfl
    | put key value =>
      show ((s.shared.put key value).map Prod.fst).count _ = _
      rw [Store.put, List.map_cons]
      by_cases hkey : key = (Key.object clientId objectId).path
      · subst hkey
        rw [upcalls_object, entries_object, if_pos ⟨rfl, rfl⟩, List.count_cons_self]
      · rw [entries_of_key hkey, List.count_cons_of_ne hkey]
        rfl
  · have hnone : d.puts (d.start s₀) clientId objectId = 0 := puts_start s₀
    rw [hnone]
    rfl

/-- At every moment, an object that has been put is with one stage, or has been notified once.
No object is lost on the way, and none is notified twice. -/
theorem object_in_one_place (d : Deployment) {s₀ : Store} (h₀ : HasConfig s₀) {s : System}
    (h : d.Reached s₀ s) (clientId objectId : Nat) :
    d.puts s clientId objectId =
        d.inStages s clientId objectId + (d.packets s clientId objectId).length ∧
      d.puts s clientId objectId ≤ 1 :=
  ⟨puts_eq h₀ h clientId objectId, puts_le_one h₀ h clientId objectId⟩

/-! ### The packets -/

theorem upcall_right (h₀ : HasConfig s₀) (h : d.Reached s₀ s) {key : List Char}
    {m : Client (Option Notification)} (hx : ⟨.upcall key, m⟩ ∈ s.processes) :
    (∀ e, m ≠ .fail e) ∧ ∀ n, m = .done (some n) →
      ∃ c ∈ d.clients, ∃ o k : Nat, (o : Int) < d.benchmarkTime ∧ k < (d.numCategories : Nat) ∧
        key = (Key.outputCategory k c.id o).path ∧ n = d.notification c o k ∧
        ∃ v, s.shared.value (.outputCategory k c.id o) = some (.hash v) := by
  have hat := (Sound.reached h₀ h).2 _ hx
  cases hat with
  | dropped i => exact ⟨nofun, nofun⟩
  | entry hc ho ha hm =>
    refine ⟨?_, ?_⟩
    · rintro e rfl
      exact hm
    · rintro n rfl
      cases hm
  | entryDone hc ho => exact ⟨nofun, nofun⟩
  | category hc ho hk ha hm =>
    refine ⟨?_, ?_⟩
    · rintro e rfl
      exact hm
    · rintro n rfl
      cases hm
  | categoryDone hc ho hk => exact ⟨nofun, nofun⟩
  | @returning c o k m hc ho hk ha hs hm =>
    refine ⟨?_, ?_⟩
    · rintro e rfl
      exact hm
    · rintro n rfl
      obtain ⟨value, hvalue, v, rfl⟩ := hs
      exact ⟨c, hc, o, k, ho, hk, rfl, Option.some.inj hm, v, hvalue⟩

/-- No stage fails, whoever calls in between; and a packet goes to the client whose object it is, to
the port that it has bound, with the number of the object and a category in which the result of that
object is stored. -/
theorem packets_right (d : Deployment) {s₀ : Store} (h₀ : HasConfig s₀) {s : System}
    (h : d.Reached s₀ s) {key : List Char} {m : Client (Option Notification)}
    (hx : ⟨.upcall key, m⟩ ∈ s.processes) :
    (∀ e, m ≠ .fail e) ∧ ∀ n, m = .done (some n) →
      ∃ c ∈ d.clients, ∃ o k : Nat, (o : Int) < d.benchmarkTime ∧ k < (d.numCategories : Nat) ∧
        key = (Key.outputCategory k c.id o).path ∧ n = d.notification c o k ∧
        (PortFits c.id → ∀ anyPort, n.port = listenPort anyPort c.id) ∧
        ∃ v, s.shared.value (.outputCategory k c.id o) = some (.hash v) := by
  obtain ⟨hfail, hsent⟩ := upcall_right h₀ h hx
  refine ⟨hfail, fun n hn => ?_⟩
  obtain ⟨c, hc, o, k, ho, hk, hkey, hnotification, hresult⟩ := hsent n hn
  refine ⟨c, hc, o, k, ho, hk, hkey, hnotification, fun hport anyPort => ?_, hresult⟩
  rw [hnotification]
  exact returnPort_of_fits hport anyPort

/-! ### The calls of the stages -/

section Calls
variable {P : Op → Prop} (hget : ∀ key, P (.get key))
include hget

theorem calls_entryObserver (hashBlob : Option Blob → UInt64) (key : List Char) {value : Blob}
    (hput : ∀ key, (objNewCategoryPath ++ objPathSep).isPrefixOf key = true → P (.put key value)) :
    (entryObserver hashBlob d.numCategories key value).Calls P := by
  unfold entryObserver
  split
  · exact True.intro
  · refine (calls_getConfigInt (hget _)).bind fun numParts _ => ?_
    refine (calls_getParts (fun i => hget _) numParts).bind fun parts _ => ?_
    refine (calls_lift _).bind fun objId _ => ?_
    refine Obeys.perform (hput _ ?_) fun _ _ => True.intro
    simp only [List.append_assoc]
    rfl

theorem calls_categoryObserver (hashBlob : Option Blob → UInt64) (key : List Char) (value : Blob)
    (hput : ∀ key v, (objOutputCategoryPath ++ objPathSep).isPrefixOf key = true → P (.put key (.hash v))) :
    (categoryObserver hashBlob key value).Calls P := by
  unfold categoryObserver
  refine (calls_lift _).bind fun keyValues _ => ?_
  refine (calls_lift _).bind fun category _ => ?_
  refine (calls_lift _).bind fun objId _ => ?_
  refine (calls_getConfigInt (hget _)).bind fun numParts _ => ?_
  refine (calls_getParts (fun i => hget _) numParts).bind fun parts _ => ?_
  refine Obeys.perform (hput _ _ ?_) fun _ _ => True.intro
  simp only [List.append_assoc]
  rfl

theorem calls_returnObserver (myId : Nat) (key : List Char) : (returnObserver myId key).Calls P := by
  unfold returnObserver
  refine (calls_lift _).bind fun keyValues _ => ?_
  refine (calls_lift _).bind fun objId _ => ?_
  refine (calls_lift _).bind fun category _ => ?_
  refine (calls_lift _).bind fun k _ => ?_
  refine (calls_lift _).bind fun clientId _ => ?_
  refine (calls_lift _).bind fun name _ => ?_
  refine (calls_lift _).bind fun objectId _ => ?_
  refine (calls_getConfigStr (hget _)).bind fun clientIp _ => ?_
  exact (calls_lift _).bind fun id _ => calls_notifyClient ..

end Calls

/-! ### The numbers of parts

A stage declares arrays on its stack, of as many elements as there are parts. So the numbers of parts
that it finds must be such that there is room for them. They are those that were there at the start
and those of the clients, whoever has put his last. -/

/-- The keys of the numbers of parts. -/
def countKeys : List Key := [.numEntryParts, .numDataParts]

/-- There is room on the stack for the arrays of at most `maxParts` elements. -/
def HasRoom (maxParts : Nat) (numParts : Int) : Prop := 0 ≤ numParts ∧ numParts ≤ maxParts

instance (maxParts : Nat) (numParts : Int) : Decidable (HasRoom maxParts numParts) := instDecidableAnd

/-- There is room for as many parts as a stage finds. -/
def Counted (maxParts : Nat) (s : Store) : Prop :=
  ∀ k ∈ countKeys, ∀ v, s.value k = some (.int v) → HasRoom maxParts v

/-- At the start, and whatever the clients make of it. -/
structure Roomy (d : Deployment) (maxParts : Nat) (s₀ : Store) : Prop where
  counted : Counted maxParts s₀
  clients : ∀ c ∈ d.clients,
    HasRoom maxParts c.parameters.numEntryParts ∧ HasRoom maxParts c.parameters.numDataParts

/-- A number of parts is put only if there is room for them. -/
def Counts (maxParts : Nat) : Op → Prop
  | .put key value => ∀ k ∈ countKeys, key = k.path → ∀ v, value = .int v → HasRoom maxParts v
  | _ => True

section Counts
variable {maxParts : Nat}

theorem Counted.act {st : Store} (h : Counted maxParts st) {op : Op} (hop : Counts maxParts op) :
    Counted maxParts (act op st).2 := by
  cases op with
  | listKeys pool => exact h
  | get key => exact h
  | put key value =>
    intro k hk v hv
    have hvalue : (st.put key value).value k = some (.int v) := hv
    rw [value_put_raw] at hvalue
    split at hvalue
    · next hkey => exact hop k hk hkey.symm v (Option.some.inj hvalue)
    · exact h k hk v hvalue

/-- An object that is no int is no number of parts. -/
theorem counts_put {key : List Char} {value : Blob} (h : ∀ v, value ≠ .int v) :
    Counts maxParts (.put key value) :=
  fun _ _ _ v hv => absurd hv (h v)

/-- Nor is an object of another pool. -/
theorem counts_of_pool {key : List Char} {value : Blob} (h : objConfigPath.isPrefixOf key = false) :
    Counts maxParts (.put key value) := by
  rintro k hk rfl
  simp only [countKeys, List.mem_cons, List.not_mem_nil, or_false] at hk
  rcases hk with rfl | rfl <;> cases h

theorem calls_putConfigInt {k : Key} {v : Int} (h : k ∈ countKeys → HasRoom maxParts v) :
    (putConfigInt k.path v).Calls (Counts maxParts) := by
  have hput : Counts maxParts (.put k.path (.int v)) := by
    intro k' hk' hkey v' hv
    obtain rfl : k = k' := Key.path_injective hkey
    obtain rfl : v = v' := Blob.int.inj hv
    exact h hk'
  exact Obeys.perform hput fun _ _ => True.intro

theorem calls_putRandomObject (key : List Char) (size : Int) :
    (putRandomObject key size).Calls (Counts maxParts) := by
  unfold putRandomObject
  split
  · exact True.intro
  · exact Obeys.perform (counts_put fun _ => Blob.noConfusion) fun _ _ => True.intro

theorem calls_updateConfig (sizeKey numKey : Key) (hsize : sizeKey ∉ countKeys) {num : Int}
    (hnum : HasRoom maxParts num) (size : Int) :
    (updateConfig sizeKey.path numKey.path size num).Calls (Counts maxParts) := by
  refine (calls_getConfigInt True.intro).bind fun stored _ => ?_
  split
  · refine (calls_getConfigInt True.intro).bind fun storedNum _ => ?_
    split
    · exact (calls_putConfigInt fun _ => hnum).bind fun _ _ => True.intro
    · exact True.intro
  · exact (calls_putConfigInt fun h => absurd h hsize).bind fun _ _ => True.intro

theorem calls_config {p : Parameters} (hentry : HasRoom maxParts p.numEntryParts)
    (hdata : HasRoom maxParts p.numDataParts) : (config p).Calls (Counts maxParts) := by
  refine (Obeys.perform (Q := fun _ => True) True.intro fun _ _ => True.intro).bind fun keys _ => ?_
  split
  · refine (calls_putConfigInt (k := .entryPartSize) fun h => absurd h (by decide)).bind fun _ _ => ?_
    refine (calls_putConfigInt (k := .numEntryParts) fun _ => hentry).bind fun _ _ => ?_
    refine (calls_putConfigInt (k := .dataPartSize) fun h => absurd h (by decide)).bind fun _ _ => ?_
    exact (calls_putConfigInt (k := .numDataParts) fun _ => hdata).bind fun _ _ => True.intro
  · refine (calls_updateConfig .entryPartSize .numEntryParts (by decide) hentry _).bind fun _ _ => ?_
    exact (calls_updateConfig .dataPartSize .numDataParts (by decide) hdata _).bind fun _ _ => True.intro

theorem calls_main {c : ClientConfig} (hentry : HasRoom maxParts c.parameters.numEntryParts)
    (hdata : HasRoom maxParts c.parameters.numDataParts) : (d.main c).Calls (Counts maxParts) := by
  rw [main_eq]
  refine (calls_config hentry hdata).bind fun toPut _ => ?_
  refine Obeys.bind (R := fun _ => True) ?_ fun _ _ => ?_
  · exact Obeys.perform (counts_put fun _ => Blob.noConfusion) fun _ _ => True.intro
  refine Obeys.bind (R := fun _ => True) (Obeys.bind (R := fun _ => True) ?_ fun _ _ => ?_) fun _ _ => ?_
  · exact Obeys.forM fun i _ => calls_putRandomObject _ _
  · exact Obeys.forM fun k _ => Obeys.forM fun i _ => calls_putRandomObject _ _
  · exact Obeys.bind (R := fun _ => True) (Obeys.forM fun o _ => calls_putRandomObject _ _) fun _ _ => True.intro

theorem config_of_newCategory {key : List Char} (h : (objNewCategoryPath ++ objPathSep).isPrefixOf key = true) :
    objConfigPath.isPrefixOf key = false := by
  obtain ⟨rest, rfl⟩ := List.isPrefixOf_iff_prefix.mp h
  rfl

/-- The stages put no number of parts. -/
theorem counts_upcalls (op : Op) : ∀ y ∈ d.upcalls op, y.program.Calls (Counts maxParts) := by
  intro y hy
  cases op with
  | put key value =>
    obtain ⟨m, hm, rfl⟩ := List.mem_map.mp hy
    have hobserver := Option.mem_toList.mp hm
    have hget : ∀ key, Counts maxParts (.get key) := fun _ => True.intro
    unfold Deployment.observer at hobserver
    split at hobserver
    · obtain rfl := Option.some.inj hobserver
      refine (calls_entryObserver hget _ key fun key hkey => ?_).bind fun _ _ => True.intro
      exact counts_of_pool (config_of_newCategory hkey)
    · split at hobserver
      · obtain rfl := Option.some.inj hobserver
        exact (calls_categoryObserver hget _ key value fun _ _ _ =>
          counts_put fun _ => Blob.noConfusion).bind fun _ _ => True.intro
      · split at hobserver
        · obtain rfl := Option.some.inj hobserver
          exact (calls_returnObserver hget _ key).bind fun _ _ => True.intro
        · cases hobserver
  | _ => cases hy

theorem counted_step : Transition.Preserved d.Step fun s : System =>
    Counted maxParts s.shared ∧ ∀ x ∈ s.processes, x.program.Calls (Counts maxParts) :=
  Pool.keepsAll_step (J := Counted maxParts) (P := fun x _ => x.program.Calls (Counts maxParts))
    (R := fun _ _ => True) (fun _ _ _ _ h => h)
    fun _ op _ _ hs h => ⟨hs.act h.1, True.intro, h.2 _ True.intro, counts_upcalls op⟩

theorem Roomy.reached (hroom : Roomy d maxParts s₀) (h : d.Reached s₀ s) : Counted maxParts s.shared := by
  refine (counted_step.run h ⟨hroom.counted, fun x hx => ?_⟩).1
  obtain ⟨c, hc, rfl⟩ := List.mem_map.mp hx
  exact calls_main (hroom.clients c hc).1 (hroom.clients c hc).2

end Counts

/-! ### The end -/

/-- How many stages are to come. -/
def Origin.level : Origin → Nat
  | .client _ => 3
  | .upcall key =>
    if (objEntryPath ++ objPathSep).isPrefixOf key then 2
    else if (objNewCategoryPath ++ objPathSep).isPrefixOf key then 1
    else 0

theorem level_upcall (key : List Char) : (Origin.upcall key).level ≤ 2 := by
  simp only [Origin.level]
  split
  · exact Nat.le_refl 2
  · split <;> decide

/-- What a call starts is of a lower level than this. -/
def StartsBelow (d : Deployment) (level : Nat) (op : Op) : Prop := ∀ y ∈ d.upcalls op, y.tag.level < level

theorem startsBelow_put {key : List Char} {level : Nat} (h : (Origin.upcall key).level < level)
    (value : Blob) : StartsBelow d level (.put key value) := by
  intro y hy
  obtain ⟨m, _, rfl⟩ := List.mem_map.mp hy
  exact h

theorem startsBelow_get (key : List Char) (level : Nat) : StartsBelow d level (.get key) :=
  fun _ hy => absurd hy List.not_mem_nil

theorem below_upcalls (op : Op) : ∀ y ∈ d.upcalls op, Pool.Below d.upcalls Origin.level y := by
  intro y hy
  cases op with
  | put key value =>
    obtain ⟨m, hm, rfl⟩ := List.mem_map.mp hy
    have hobserver := Option.mem_toList.mp hm
    simp only [Pool.Below, Origin.level]
    unfold Deployment.observer at hobserver
    split at hobserver
    · next hentry =>
      obtain rfl := Option.some.inj hobserver
      rw [if_pos hentry]
      refine (calls_entryObserver (startsBelow_get · 2) _ key fun key hkey => ?_).bind fun _ _ => True.intro
      obtain ⟨rest, rfl⟩ := List.isPrefixOf_iff_prefix.mp hkey
      exact startsBelow_put Nat.one_lt_two _
    · next hentry =>
      rw [if_neg hentry]
      split at hobserver
      · next hcategory =>
        obtain rfl := Option.some.inj hobserver
        rw [if_pos hcategory]
        refine (calls_categoryObserver (startsBelow_get · 1) _ key value fun key v hkey => ?_).bind
          fun _ _ => True.intro
        obtain ⟨rest, rfl⟩ := List.isPrefixOf_iff_prefix.mp hkey
        exact startsBelow_put Nat.zero_lt_one _
      · split at hobserver
        · obtain rfl := Option.some.inj hobserver
          exact (calls_returnObserver (fun _ => startsBelow_get _ _) _ key).bind fun _ _ => True.intro
        · cases hobserver
  | _ => cases hy

/-- Every run ends, whatever the store holds. -/
theorem acc_start (d : Deployment) (s₀ : Store) : Acc (fun b a => d.Step a b) (d.start s₀) := by
  refine Pool.acc_of_below Origin.level below_upcalls fun x hx => ?_
  obtain ⟨c, _, rfl⟩ := List.mem_map.mp hx
  refine calls_of_forall (fun op y hy => ?_) _
  obtain ⟨key, hkey⟩ := upcalls_tag hy
  rw [hkey]
  exact Nat.lt_succ_of_le (level_upcall key)

/-- A client that can put nothing more has put all its objects. -/
theorem ClientAt.rest {c : ClientConfig} {st : Store} {l : List Nat} {m : Client (Option Notification)}
    (h : ClientAt d c st l m) (hsized : c.Sized) : l = [] ∨ ∃ op k, m = .call op k := by
  have hobjects : ∀ l, c.putObjects l = .done none ∧ l = [] ∨ ∃ op k, c.putObjects l = .call op k := by
    intro l
    cases l with
    | nil => exact .inl ⟨rfl, rfl⟩
    | cons o l =>
      rw [putObjects_cons, if_neg (Int.not_lt.mpr hsized.2.2.1)]
      exact .inr ⟨_, _, rfl⟩
  cases h with
  | @config m hm =>
    cases m with
    | done toPut => exact .inr ⟨_, _, rfl⟩
    | call op k => exact .inr ⟨_, _, rfl⟩
    | fail e => exact absurd hsized hm.2
  | @parts m ha hm =>
    cases m with
    | done a => exact (hobjects _).imp And.right id
    | call op k => exact .inr ⟨_, _, rfl⟩
    | fail e => exact absurd hsized hm.2
  | objects ha hl => exact (hobjects _).imp And.right id
  | failed he => exact absurd hsized he.2

/-- A packet for an object has been sent by an upcall of its return stage. -/
theorem process_of_packet {n : Notification} (hn : n ∈ d.packets s clientId objectId) :
    ∃ key, ⟨.upcall key, .done (some n)⟩ ∈ s.processes ∧
      (Origin.upcall key).stage d.numCategories clientId objectId = some .returning := by
  obtain ⟨⟨tag, m⟩, hx, hpacket⟩ := List.mem_filterMap.mp hn
  split at hpacket
  · next packet hstage hdone =>
    subst hpacket
    obtain rfl : m = .done (some n) := hdone
    cases tag with
    | client c => cases hstage
    | upcall key => exact ⟨key, hx, hstage⟩
  · cases hpacket

theorem mem_packets (h₀ : HasConfig s₀) (h : d.Reached s₀ s) {n : Notification}
    (hn : n ∈ d.packets s clientId objectId) :
    ∃ c ∈ d.clients, c.id = clientId ∧ ∃ k < (d.numCategories : Nat), n = d.notification c objectId k := by
  obtain ⟨key, hx, hstage⟩ := process_of_packet hn
  obtain ⟨c, hc, o, k, ho, hk, rfl, hnotification, _⟩ := (upcall_right h₀ h hx).2 n rfl
  rw [stage_path, Key.stage] at hstage
  split at hstage
  · next hid =>
    obtain ⟨_, rfl, rfl⟩ := hid
    exact ⟨c, hc, rfl, k, hk, hnotification⟩
  · cases hstage

/-- At rest, an object of a client whose objects can be filled is in a packet. -/
theorem notified_at_rest (h₀ : HasConfig s₀) (h : d.Reached s₀ s) (hrest : ∀ s', ¬ d.Step s s')
    {c : ClientConfig} (hc : c ∈ d.clients) (hsized : c.Sized) {o : Nat} (ho : (o : Int) < d.benchmarkTime) :
    ∃ k < (d.numCategories : Nat), d.packets s c.id o = [d.notification c o k] := by
  have hcalls : ∀ x ∈ s.processes, ∀ op k, x.program ≠ .call op k := by
    intro x hx op k hcall
    have hstep : ∃ s', d.Step s s' := Pool.exists_step hx hcall
    obtain ⟨s', hs'⟩ := hstep
    exact hrest s' hs'
  have hstages : d.inStages s c.id o = 0 := by
    refine List.countP_eq_zero.mpr fun x hx hstage => ?_
    obtain ⟨tag, m⟩ := x
    simp only [Bool.and_eq_true, Bool.not_eq_true'] at hstage
    cases tag with
    | client c => cases hstage.1
    | upcall key =>
      cases m with
      | done packet => cases hstage.2
      | call op k => exact hcalls _ hx op k rfl
      | fail e => exact (upcall_right h₀ h hx).1 e rfl
  have hputs : d.puts s c.id o = 1 := by
    obtain ⟨l, m, hmem, hat, hcount⟩ := progress_reached h₀ h hc
    rcases hat.rest hsized with rfl | ⟨op, k, hcall⟩
    · have hone : d.objectIds.count o = 1 :=
        List.count_eq_one_of_mem List.nodup_range (List.mem_range.mpr (by omega))
      rw [← hone, ← hcount, List.count_nil, Nat.add_zero]
    · exact absurd hcall (hcalls _ hmem op k)
  have hlength : (d.packets s c.id o).length = 1 := by
    have hplaces := puts_eq h₀ h c.id o
    omega
  obtain ⟨n, hn⟩ := List.length_eq_one_iff.mp hlength
  obtain ⟨c', hc', hid, k, hk, rfl⟩ := mem_packets h₀ h (hn ▸ List.mem_singleton_self n)
  rw [eq_of_id_eq hc' hc hid] at hn
  exact ⟨k, hk, hn⟩

def oneClient : ClientConfig := ⟨7, "10.0.0.7".toList, ⟨1, 0, 1, 0⟩, 5⟩

def oneObject : Deployment where
  numCategories := ⟨2, by decide⟩
  benchmarkTime := 1
  hashBlob := fun _ value => if value = some (.random 5) then 1 else 0
  nodeOf := fun _ => 4
  clients := [oneClient]
  distinct := by decide
  categories_lt := by decide
  objects_lt := by decide
  ports_lt := by decide

def noParts : Store :=
  [(objConfigEntryPartSize, .int 1), (objConfigNumEntryParts, .int 0), (objConfigDataPartSize, .int 1),
    (objConfigNumDataParts, .int 0)]

theorem hasConfig_noParts : HasConfig noParts := by
  intro k hk
  simp only [configKeys, List.mem_cons, List.not_mem_nil, or_false] at hk
  rcases hk with rfl | rfl | rfl | rfl
  · exact ⟨1, rfl⟩
  · exact ⟨0, rfl⟩
  · exact ⟨1, rfl⟩
  · exact ⟨0, rfl⟩

/-- The client has put its object, and the entry stage has passed it on. -/
def underWay : System :=
  (Pool.schedule act oneObject.upcalls (oneObject.start noParts) [0, 0, 0, 0, 0, 0, 0, 1, 1]).getD
    (oneObject.start noParts)

theorem reached_underWay : oneObject.Reached noParts underWay :=
  Pool.reaches_schedule act oneObject.upcalls [0, 0, 0, 0, 0, 0, 0, 1, 1] rfl

/-- All the stages are done. -/
def notified : System :=
  (Pool.schedule act oneObject.upcalls underWay [2, 2, 3]).getD underWay

theorem reached_notified : oneObject.Reached noParts notified :=
  reached_underWay.trans (Pool.reaches_schedule act oneObject.upcalls [2, 2, 3] rfl)

theorem object_in_one_place_underWay :
    oneObject.puts underWay 7 0 = 1 ∧ oneObject.inStages underWay 7 0 = 1 ∧
      oneObject.packets underWay 7 0 = [] := by
  have h := object_in_one_place oneObject hasConfig_noParts reached_underWay 7 0
  have hputs : oneObject.puts underWay 7 0 = 1 := by decide
  have hstages : oneObject.inStages underWay 7 0 = 1 := by decide
  refine ⟨hputs, hstages, List.length_eq_zero_iff.mp ?_⟩
  omega

theorem packets_right_notified :
    ∃ c ∈ oneObject.clients, ∃ o k : Nat, oneObject.notification oneClient 0 1 = oneObject.notification c o k ∧
      (PortFits c.id → ∀ anyPort, (oneObject.notification oneClient 0 1).port = listenPort anyPort c.id) ∧
      ∃ v, notified.shared.value (.outputCategory k c.id o) = some (.hash v) := by
  have hsent : notified.processes[3]? = some ⟨.upcall (Key.outputCategory 1 7 0).path,
      .done (some (oneObject.notification oneClient 0 1))⟩ := rfl
  obtain ⟨c, hc, o, k, _, _, _, hn, hport, hv⟩ :=
    (packets_right oneObject hasConfig_noParts reached_notified (List.mem_of_getElem? hsent)).2 _ rfl
  exact ⟨c, hc, o, k, hn, hport, hv⟩

end CascadePlayground.Affinity
