import CascadePlayground.Affinity.Setup

/-! Clients that set up at the same time.

The clients have the same parameters, and their calls on the store are
interleaved in any order. Nothing keeps one of them from looking at the
configuration while another is putting it: it may then read a size or a number
that is not there yet, or find everything configured and return before the parts are
put (`overtaking`).

All clients put the same values under the same keys, so whatever they do, the
store only grows (`Grows`). It is therefore a client's own look at the
configuration that decides: when it finds the pool empty, or all four sizes and
numbers, it reads nothing that is not there; when it finds the pool empty, or all
that the numbers promise, then all of it is there as soon as the client returns
(`setups_interleaved`). -/
namespace CascadePlayground.Affinity
open Text Program

/-- What a client finds in the configuration pool, should it not be empty. -/
inductive Look where
  | anything
  | allConfig
  | allParts
deriving DecidableEq, Repr

def configPut (s : Store) : Bool :=
  [Key.entryPartSize, .numEntryParts, .dataPartSize, .numDataParts].all fun k => (s.value k).isSome

/-- A part for every index below the numbers. -/
def partsPut (numCategories : ℕ+) (s : Store) : Bool :=
  match s.value .numEntryParts, s.value .numDataParts with
  | some (.int m), some (.int n) =>
    (List.range m.toNat).all (fun i => (s.value (.entryData i)).isSome) &&
      (List.range numCategories).all fun c =>
        (List.range n.toNat).all fun i => (s.value (.categoryData c i)).isSome
  | _, _ => false

def finds (numCategories : ℕ+) : Look → Store → Bool
  | .anything, _ => true
  | .allConfig, s => configPut s
  | .allParts, s => configPut s && partsPut numCategories s

/-- A client that looks at the configuration only when it finds that. -/
def admits (numCategories : ℕ+) (look : Look) : Op → Store → Bool
  | .listKeys pool, s => (s.listKeys pool).isEmpty || finds numCategories look s
  | _, _ => true

/-- What the UDLs rely on: the numbers, and a part for every index below them. -/
def PartsPut (numCategories : ℕ+) (s : Store) : Prop :=
  ∃ m n, s.value .numEntryParts = some (.int m) ∧ s.value .numDataParts = some (.int n) ∧
    (∀ i : Nat, (i : Int) < m → (s.value (.entryData i)).isSome) ∧
    ∀ c < (numCategories : Nat), ∀ i : Nat, (i : Int) < n → (s.value (.categoryData c i)).isSome

/-- The clients before their first call, all with the same parameters. -/
def begin {ι : Type} (numCategories : ℕ+) (p : Parameters) (clientId : ι → Nat)
    (clientIp : ι → List Char) : Config Op Reply Failure Store ι Unit :=
  ⟨[], fun i => setup numCategories p (clientId i) (clientIp i)⟩

/-! ### Stores that grow -/

/-- The configuration of these parameters. -/
def spec (p : Parameters) : Key → Option Blob
  | .entryPartSize => some (.int p.entryPartSize)
  | .numEntryParts => some (.int p.numEntryParts)
  | .dataPartSize => some (.int p.dataPartSize)
  | .numDataParts => some (.int p.numDataParts)
  | _ => none

/-- What has been put of the configuration is that of the parameters. -/
def Conforms (p : Parameters) (s : Store) : Prop :=
  ∀ k v b, spec p k = some v → s.value k = some b → b = v

structure Grows (p : Parameters) (s s' : Store) : Prop where
  conforms : Conforms p s → Conforms p s'
  kept : ∀ k, (s.value k).isSome → (s'.value k).isSome

variable {p : Parameters} {numCategories : ℕ+} {look : Look} {s s' : Store}

theorem Grows.refl (s : Store) : Grows p s s := ⟨id, fun _ => id⟩

theorem Grows.trans (a b c : Store) (h : Grows p a b) (h' : Grows p b c) : Grows p a c :=
  ⟨fun hc => h'.conforms (h.conforms hc), fun k hk => h'.kept k (h.kept k hk)⟩

theorem grows_put {k : Key} {b : Blob} (hb : spec p k = none ∨ spec p k = some b) (s : Store) :
    Grows p s (s.put k.path b) := by
  refine ⟨fun hc k' v b' hv hb' => ?_, fun k' hk' => ?_⟩
  · rw [Store.value_put] at hb'
    split at hb'
    · next hk =>
      rw [hk] at hv
      rcases hb with hb | hb
      · rw [hb] at hv
        cases hv
      · exact Option.some.inj (hb'.symm.trans (hb.symm.trans hv))
    · exact hc k' v b' hv hb'
  · rw [Store.value_put]
    split
    · rfl
    · exact hk'

/-- What a client with this look knows to be there once it has looked. -/
structure Found (numCategories : ℕ+) (p : Parameters) (look : Look) (s : Store) : Prop where
  conforms : Conforms p s
  config : look ≠ .anything → ∀ k v, spec p k = some v → (s.value k).isSome
  entryData : look = .allParts → ∀ i : Nat, (i : Int) < p.numEntryParts → (s.value (.entryData i)).isSome
  categoryData : look = .allParts → ∀ c < (numCategories : Nat), ∀ i : Nat, (i : Int) < p.numDataParts →
    (s.value (.categoryData c i)).isSome

theorem Found.grows (h : Found numCategories p look s) (hs : Grows p s s') :
    Found numCategories p look s' :=
  ⟨hs.conforms h.conforms, fun hl k v hv => hs.kept k (h.config hl k v hv),
    fun hl i hi => hs.kept _ (h.entryData hl i hi),
    fun hl c hc i hi => hs.kept _ (h.categoryData hl c hc i hi)⟩

theorem Found.partsPut (h : Found numCategories p .allParts s) : PartsPut numCategories s := by
  have hvalue : ∀ k v, spec p k = some v → s.value k = some v := by
    intro k v hv
    obtain ⟨b, hb⟩ := Option.isSome_iff_exists.mp (h.config Look.noConfusion k v hv)
    rw [hb, h.conforms k v b hv hb]
  exact ⟨_, _, hvalue .numEntryParts _ rfl, hvalue .numDataParts _ rfl, h.entryData rfl, h.categoryData rfl⟩

theorem isSome_of_configPut (h : configPut s = true) (k : Key) (v : Blob) (hv : spec p k = some v) :
    (s.value k).isSome := by
  have hall := List.all_eq_true.mp h
  cases k with
  | entryPartSize => exact hall _ (by decide)
  | numEntryParts => exact hall _ (by decide)
  | dataPartSize => exact hall _ (by decide)
  | numDataParts => exact hall _ (by decide)
  | _ => cases hv

theorem isSome_of_partsPut (hc : Conforms p s) (h : Affinity.partsPut numCategories s = true) :
    (∀ i : Nat, (i : Int) < p.numEntryParts → (s.value (.entryData i)).isSome) ∧
    ∀ c < (numCategories : Nat), ∀ i : Nat, (i : Int) < p.numDataParts →
      (s.value (.categoryData c i)).isSome := by
  unfold Affinity.partsPut at h
  split at h
  · next m n hm hn =>
    have hm' := Blob.int.inj (hc .numEntryParts _ _ rfl hm)
    have hn' := Blob.int.inj (hc .numDataParts _ _ rfl hn)
    simp only [Bool.and_eq_true, List.all_eq_true, List.mem_range] at h
    exact ⟨fun i hi => h.1 i (by omega), fun c hc i hi => h.2 c hc i (by omega)⟩
  · cases h

theorem found_of_finds (hc : Conforms p s) (h : finds numCategories look s = true) :
    Found numCategories p look s := by
  cases look with
  | anything => exact ⟨hc, fun hl => absurd rfl hl, Look.noConfusion, Look.noConfusion⟩
  | allConfig => exact ⟨hc, fun _ => isSome_of_configPut h, Look.noConfusion, Look.noConfusion⟩
  | allParts =>
    have h := Bool.and_eq_true_iff.mp h
    have hparts := isSome_of_partsPut hc h.2
    exact ⟨hc, fun _ => isSome_of_configPut h.1, fun _ => hparts.1, fun _ => hparts.2⟩

/-! ### What each part of `setup()` keeps -/

/-- How a client may fail: it reads what is not there only if it does not care
what it finds. -/
def Allowed (look : Look) : Failure → Prop
  | .noInt => look = .anything
  | _ => True

/-- A part of a client's program, and what it leaves. -/
abbrev Safe {α : Type} (numCategories : ℕ+) (p : Parameters) (look : Look) (Q : α → Store → Prop)
    (m : Client α) (s : Store) : Prop :=
  m.Keeps act (admits numCategories look) (Grows p) (Allowed look) Q s

theorem safe_pure {α : Type} {Q : α → Store → Prop} {a : α} (h : ∀ s', Grows p s s' → Q a s') :
    Safe numCategories p look Q (pure a) s := h

theorem safe_put {k : Key} {b : Blob} (hb : spec p k = none ∨ spec p k = some b) :
    Safe numCategories p look (fun _ s' => Grows p s s' ∧ (s'.value k).isSome) (put k.path b) s := by
  refine Keeps.perform fun t ht _ => ⟨grows_put hb t, fun t' ht' => ⟨?_, ht'.kept k ?_⟩⟩
  · exact ht.trans _ _ _ ((grows_put hb t).trans _ _ _ ht')
  · show ((t.put k.path b).value k).isSome
    rw [Store.value_put, if_pos rfl]
    rfl

/-- What a client reads is what the parameters say. -/
theorem safe_getConfigInt {k : Key} {v : Int} (hv : spec p k = some (.int v))
    (h : Found numCategories p look s) :
    Safe numCategories p look (fun a s' => a = v ∧ Grows p s s') (getConfigInt k.path) s := by
  intro t ht _
  refine ⟨Grows.refl t, ?_⟩
  have hreply : (act (.get k.path) t).1 = t.value k := rfl
  rw [hreply]
  cases hb : t.value k with
  | none =>
    show look = .anything
    by_contra hl
    have hsome := (h.grows ht).config hl k _ hv
    rw [hb] at hsome
    cases hsome
  | some b =>
    rw [(h.grows ht).conforms k _ b hv hb]
    exact safe_pure fun t' ht' => ⟨rfl, ht.trans _ _ _ ht'⟩

theorem safe_putRandomObject {k : Key} (hk : spec p k = none) (size : Int) :
    Safe numCategories p look (fun _ s' => Grows p s s' ∧ (s'.value k).isSome)
      (putRandomObject k.path size) s := by
  unfold putRandomObject
  split
  · exact True.intro
  · exact safe_put (.inl hk)

theorem safe_forM {ι : Type} {l : List ι} {body : ι → Client Unit} (keys : ι → List Key)
    (h : ∀ x ∈ l, ∀ s, Safe numCategories p look
      (fun _ s' => Grows p s s' ∧ ∀ k ∈ keys x, (s'.value k).isSome) (body x) s) (s : Store) :
    Safe numCategories p look (fun _ s' => Grows p s s' ∧ ∀ k ∈ l.flatMap keys, (s'.value k).isSome)
      (l.forM body) s := by
  induction l generalizing s with
  | nil => exact safe_pure fun s' hs' => ⟨hs', fun k hk => absurd hk List.not_mem_nil⟩
  | cons x l ih =>
    refine Keeps.bind Grows.refl (h x (List.mem_cons_self ..) s) fun _ t ht => ?_
    refine (ih (fun y hy => h y (List.mem_cons_of_mem _ hy)) t).imp fun _ s' hs' => ?_
    refine ⟨ht.1.trans _ _ _ hs'.1, fun k hk => ?_⟩
    rcases List.mem_append.mp hk with hk | hk
    · exact hs'.1.kept k (ht.2 k hk)
    · exact hs'.2 k hk

/-- A client that finds a configuration has nothing left to put. -/
theorem safe_updateConfig (sizeKey numKey : Key) {size num : Int} (h : Found numCategories p look s)
    (hs : spec p sizeKey = some (.int size)) (hn : spec p numKey = some (.int num)) :
    Safe numCategories p look (fun a s' => a = 0 ∧ Grows p s s')
      (updateConfig sizeKey.path numKey.path size num) s := by
  refine Keeps.bind Grows.refl (safe_getConfigInt hs h) fun a t ht => ?_
  rw [if_pos ht.1]
  refine Keeps.bind Grows.refl (safe_getConfigInt hn (h.grows ht.2)) fun b u hu => ?_
  rw [if_neg (by rw [hu.1]; exact Int.lt_irrefl _)]
  exact safe_pure fun s' hs' => ⟨rfl, ht.2.trans _ _ _ (hu.2.trans _ _ _ hs')⟩

/-- A client comes out of the configuration with all parts to put, or with none
because it has found them. -/
def Configured (numCategories : ℕ+) (p : Parameters) (look : Look) (toPut : Int × Int) (s : Store) :
    Prop :=
  (toPut = (p.numEntryParts, p.numDataParts) ∧ Found numCategories p .allConfig s) ∨
    (toPut = (0, 0) ∧ Found numCategories p look s)

theorem Configured.grows {toPut : Int × Int} (h : Configured numCategories p look toPut s)
    (hs : Grows p s s') : Configured numCategories p look toPut s' :=
  h.imp (fun h => ⟨h.1, h.2.grows hs⟩) fun h => ⟨h.1, h.2.grows hs⟩

theorem safe_config (h : Conforms p s) :
    Safe numCategories p look (Configured numCategories p look) (config p) s := by
  intro t ht hlook
  refine ⟨Grows.refl t, ?_⟩
  have hconforms := ht.conforms h
  show Safe numCategories p look _ (if (t.listKeys objConfigPath).isEmpty then _ else _) t
  split
  · refine Keeps.bind Grows.refl (safe_put (k := .entryPartSize) (.inr rfl)) fun _ a ha => ?_
    refine Keeps.bind Grows.refl (safe_put (k := .numEntryParts) (.inr rfl)) fun _ b hb => ?_
    refine Keeps.bind Grows.refl (safe_put (k := .dataPartSize) (.inr rfl)) fun _ c hc => ?_
    refine Keeps.bind Grows.refl (safe_put (k := .numDataParts) (.inr rfl)) fun _ d hd => ?_
    have hbd := hc.1.trans _ _ _ hd.1
    have had := hb.1.trans _ _ _ hbd
    have hput : configPut d = true := by
      simp only [configPut, List.all_cons, List.all_nil, Bool.and_true, Bool.and_eq_true]
      exact ⟨had.kept _ ha.2, hbd.kept _ hb.2, hd.1.kept _ hc.2, hd.2⟩
    have hfound : Found numCategories p .allConfig d :=
      found_of_finds ((ha.1.trans _ _ _ had).conforms hconforms) hput
    exact safe_pure fun s' hs' => .inl ⟨rfl, hfound.grows hs'⟩
  · next hkeys =>
    -- the look is admitted, and not because the pool is empty
    have hfound : Found numCategories p look t := by
      apply found_of_finds hconforms
      exact (Bool.or_eq_true_iff.mp hlook).resolve_left hkeys
    refine Keeps.bind Grows.refl (safe_updateConfig .entryPartSize .numEntryParts hfound rfl rfl)
      fun a u hu => ?_
    have hfound := hfound.grows hu.2
    refine Keeps.bind Grows.refl (safe_updateConfig .dataPartSize .numDataParts hfound rfl rfl)
      fun b w hw => ?_
    have hfound := hfound.grows hw.2
    rw [hu.1, hw.1]
    exact safe_pure fun s' hs' => .inr ⟨rfl, hfound.grows hs'⟩

/-- The keys of the parts that a loop over an `intRange` puts. -/
theorem mem_partKeys {num toPut : Int} (f : Nat → Key) (h : toPut = num) {i : Nat} (hi : (i : Int) < num) :
    f i ∈ (intRange (num - toPut) num).flatMap fun j => [f j.toNat] := by
  refine List.mem_flatMap.mpr ⟨(i : Int), mem_intRange.mpr ⟨by omega, hi⟩, ?_⟩
  rw [Int.toNat_natCast]
  exact List.mem_singleton.mpr rfl

theorem safe_putParts (f : Nat → Key) (hf : ∀ i, spec p (f i) = none) (size first last : Int) (s : Store) :
    Safe numCategories p look
      (fun _ s' => Grows p s s' ∧ ∀ k ∈ (intRange first last).flatMap (fun j => [f j.toNat]),
        (s'.value k).isSome)
      ((intRange first last).forM fun i => putRandomObject (f i.toNat).path size) s := by
  refine safe_forM _ (fun i _ t => ?_) s
  refine (safe_putRandomObject (hf _) size).imp fun _ s' hs' => ⟨hs'.1, fun k hk => ?_⟩
  rw [List.mem_singleton.mp hk]
  exact hs'.2

/-- All parts are put, or there are none to put. -/
theorem safe_putEntryData {toPut : Int} (h : toPut = p.numEntryParts ∨ toPut = 0) (s : Store) :
    Safe numCategories p look
      (fun _ s' => Grows p s s' ∧ (toPut = p.numEntryParts →
        ∀ i : Nat, (i : Int) < p.numEntryParts → (s'.value (.entryData i)).isSome))
      (putEntryData p toPut) s := by
  rw [putEntryData_eq p (by omega)]
  refine (safe_putParts .entryData (fun _ => rfl) _ _ _ s).imp fun _ s' hs' => ⟨hs'.1, fun hput i hi => ?_⟩
  exact hs'.2 _ (mem_partKeys .entryData hput hi)

theorem safe_putCategoriesData {toPut : Int} (h : toPut = p.numDataParts ∨ toPut = 0) (s : Store) :
    Safe numCategories p look
      (fun _ s' => Grows p s s' ∧ (toPut = p.numDataParts →
        ∀ c < (numCategories : Nat), ∀ i : Nat, (i : Int) < p.numDataParts →
          (s'.value (.categoryData c i)).isSome))
      (putCategoriesData numCategories p toPut) s := by
  rw [putCategoriesData_eq numCategories p (by omega)]
  refine (safe_forM (fun c => (intRange (p.numDataParts - toPut) p.numDataParts).flatMap fun j =>
    [.categoryData c j.toNat]) (fun c _ => safe_putParts (.categoryData c) (fun _ => rfl) _ _ _) s).imp
    fun _ s' hs' => ⟨hs'.1, fun hput c hc i hi => hs'.2 _ ?_⟩
  exact List.mem_flatMap.mpr ⟨c, List.mem_range.mpr hc, mem_partKeys (.categoryData c) hput hi⟩

/-- What a client leaves, if it looked for all the parts. -/
theorem safe_setup (clientId : Nat) (clientIp : List Char) (h : Conforms p s) :
    Safe numCategories p look (fun _ s' => look = .allParts → PartsPut numCategories s')
      (setup numCategories p clientId clientIp) s := by
  refine Keeps.bind Grows.refl (safe_config h) fun toPut a ha => ?_
  refine Keeps.bind Grows.refl (safe_put (k := .clientData clientId) (.inl rfl)) fun _ b hb => ?_
  have hb := ha.grows hb.1
  have hcount : (toPut.1 = p.numEntryParts ∨ toPut.1 = 0) ∧ (toPut.2 = p.numDataParts ∨ toPut.2 = 0) := by
    rcases ha with ha | ha
    · rw [ha.1]
      exact ⟨.inl rfl, .inl rfl⟩
    · rw [ha.1]
      exact ⟨.inr rfl, .inr rfl⟩
  refine Keeps.bind Grows.refl (safe_putEntryData hcount.1 b) fun _ c hc => ?_
  refine (safe_putCategoriesData hcount.2 c).imp fun _ s' hs' hl => ?_
  have hend := (hb.grows hc.1).grows hs'.1
  subst hl
  rcases hend with hend | hend
  · have hfound := hend.2
    have h1 : toPut.1 = p.numEntryParts := by rw [hend.1]
    have h2 : toPut.2 = p.numDataParts := by rw [hend.1]
    have hentry : ∀ i : Nat, (i : Int) < p.numEntryParts → (s'.value (.entryData i)).isSome :=
      fun i hi => hs'.1.kept _ (hc.2 h1 i hi)
    have hparts : Found numCategories p .allParts s' :=
      ⟨hfound.conforms, fun _ => hfound.config Look.noConfusion, fun _ => hentry, fun _ => hs'.2 h2⟩
    exact hparts.partsPut
  · exact hend.2.partsPut

/-! ### Any number of clients -/

/-- **Clients that set up at the same time**, in any order of their calls. A
client that finds the pool empty or all four values never reads a missing one;
and once a client that finds it empty or complete has returned, everything is
there. -/
theorem setups_interleaved {ι : Type} [DecidableEq ι] (numCategories : ℕ+) (p : Parameters)
    (clientId : ι → Nat) (clientIp : ι → List Char) (looks : ι → Look)
    (c : Config Op Reply Failure Store ι Unit)
    (h : Relation.ReflTransGen (Step act fun i => admits numCategories (looks i))
      (begin numCategories p clientId clientIp) c) :
    (∀ i, looks i ≠ .anything → c.clients i ≠ .fail .noInt) ∧
      ∀ i, looks i = .allParts → c.clients i = .done () → PartsPut numCategories c.shared := by
  have hsafe := Keeps.reached (F := fun i => Allowed (looks i))
    (Q := fun i _ s => looks i = .allParts → PartsPut numCategories s) Grows.refl Grows.trans
    (fun i => safe_setup (clientId i) (clientIp i) fun k v b _ hb => by cases hb) h
  refine ⟨fun i hi hfail => hi ?_, fun i hi hdone => ?_⟩
  · exact (hsafe i).of_fail hfail
  · exact (hsafe i).of_done Grows.refl hdone hi

/-- Two clients, with one part of everything. -/
def twoClients : Config Op Reply Failure Store (Fin 2) Unit :=
  begin defaultCategories ⟨1, 1, 1, 1⟩ (fun i => i) fun _ => []

/-- Both look at the configuration before either of them puts anything. -/
theorem twoClients_partsPut :
    ∃ c : Config Op Reply Failure Store (Fin 2) Unit,
      c.clients 0 = .done () ∧ PartsPut defaultCategories c.shared := by
  have h := reaches_schedule act (fun _ : Fin 2 => admits defaultCategories .allParts)
    (c := twoClients) ([0, 1, 1, 1] ++ List.replicate 16 0) rfl
  exact ⟨_, rfl, (setups_interleaved _ _ _ _ (fun _ => .allParts) _ h).2 0 rfl rfl⟩

/-- The second client looks after the first has put one value, and after it has
put all four. -/
theorem overtaking :
    (∃ c, Relation.ReflTransGen (Step act fun _ => admits defaultCategories .anything) twoClients c ∧
      c.clients 1 = .fail .noInt) ∧
    ∃ c, Relation.ReflTransGen (Step act fun _ => admits defaultCategories .anything) twoClients c ∧
      c.clients 1 = .done () ∧ ¬ PartsPut defaultCategories c.shared := by
  refine ⟨⟨_, reaches_schedule _ _ [0, 0, 1, 1, 1] rfl, rfl⟩, ?_⟩
  refine ⟨_, reaches_schedule _ _ (List.replicate 5 0 ++ List.replicate 6 1) rfl, rfl, fun h => ?_⟩
  obtain ⟨m, _, hm, _, hentry, _⟩ := h
  have hm : (1 : Int) = m := Blob.int.inj (Option.some.inj hm)
  -- the first entry part is promised, and not there
  have hpart := hentry 0 (by omega)
  cases hpart

end CascadePlayground.Affinity
