import CascadePlayground.Cbdc.Invariant

/-! When `generate` ends.

A search goes round the list until it meets an entry of a wallet that has not
been picked, and is meant to give up when it is back at `started`. But the first
pick of the transfer has erased the node `started` names
(`Building.not_atStarted`), so a search that finds only picked wallets goes round
for ever (`exhausted_trap`). Otherwise the entry comes nearer with every step,
and between two picks the control passes each of the other tests at most once
(`measure_fall`).

So a run ends exactly when none of its searches is left with picked wallets only
(`ends_iff`). -/
namespace CascadePlayground.Cbdc
open StateTransition (Reaches)
open Transition

/-! ### Searches -/

/-- The control is at the test of a search loop. -/
def State.Searching (s : State) : Prop :=
  ∃ id, s.control = .senderSearch id ∨ s.control = .receiverSearch id

/-- Every entry still in the list belongs to a wallet already picked. -/
def State.Exhausted (s : State) : Prop := ∀ n ∈ s.walletList.toList, n.wallet ∈ s.picked

/-- The search leads to `finish` after at most one lap. -/
def GivesUp (p : Parameters) (s : State) : Prop :=
  ∃ k ≤ s.walletList.size, (run (next p false) k s).control = .returned ∨
    (run (next p false) k s).control = .transfers

/-- `generate` returns, or throws "Not enough funds". -/
def Ends (p : Parameters) (order : Shuffled p) : Prop :=
  ∃ s, Reached p order s ∧ (s.control = .returned ∨ s.control = .notEnoughFunds)

variable {p : Parameters} {s s' : State}

/-- A search has an entry under the iterator. -/
theorem Building.searching (hb : Building p s) (h : s.Searching) :
    ∃ node, s.walletList.deref = some node ∧ node ∈ s.walletList.toList ∧
      (s.control = .senderSearch node.wallet ∨ s.control = .receiverSearch node.wallet) := by
  obtain ⟨id, hid⟩ := h
  obtain ⟨node, hd, rfl⟩ := hb.target id hid
  exact ⟨node, hd, CursorList.mem_of_deref hd, hid⟩

theorem State.Searching.building (h : s.Searching) : s.control.building = true := by
  obtain ⟨id, hc | hc⟩ := h
  · rw [hc]; rfl
  · rw [hc]; rfl

/-- A step of a search that meets a picked wallet: the same search, one further. -/
theorem next_searchOn (hb : Building p s) (h : s.Searching) {node : Node}
    (hd : s.walletList.deref = some node) (hpicked : node.wallet ∈ s.picked) :
    ∃ list : CursorList Node, ∃ rest, list.toList = s.walletList.toList ∧
      s.walletList.ring = node :: rest ∧ list.ring = rest ++ [node] ∧
      ∃ c : Control, (∃ id, c = .senderSearch id ∨ c = .receiverSearch id) ∧
        next p false s = some {s with walletList := list, control := c} := by
  obtain ⟨m, hm, _, hc⟩ := hb.searching h
  obtain rfl : m = node := Option.some.inj (hm.symm.trans hd)
  rcases hc with hc | hc
  · obtain ⟨list, n, n', rest, hl, _, hn, _, hr, hr', _, he⟩ :=
      hb.searchOn_false (.inl hc) hpicked .senderSearch .returned
    obtain rfl : n = m := Option.some.inj (hn.symm.trans hd)
    refine ⟨list, rest, hl, hr, hr', .senderSearch n'.wallet, ⟨_, .inl rfl⟩, ?_⟩
    rw [← he]
    simp only [next, hc, hpicked, if_true]
  · obtain ⟨list, n, n', rest, hl, _, hn, _, hr, hr', _, he⟩ :=
      hb.searchOn_false (.inr hc) hpicked .receiverSearch .transfers
    obtain rfl : n = m := Option.some.inj (hn.symm.trans hd)
    refine ⟨list, rest, hl, hr, hr', .receiverSearch n'.wallet, ⟨_, .inr rfl⟩, ?_⟩
    rw [← he]
    simp only [next, hc, hpicked, if_true]

/-! ### A search that cannot end -/

theorem exhausted_trap (p : Parameters) :
    Trap (next p false) fun s => Inv p s ∧ s.Searching ∧ s.Exhausted := by
  intro s h
  obtain ⟨hinv, hs, he⟩ := h
  have hb := hinv.building hs.building
  obtain ⟨node, hd, hm, _⟩ := hb.searching hs
  obtain ⟨list, rest, hl, _, _, c, hc, hn⟩ := next_searchOn hb hs hd (he node hm)
  refine ⟨_, hn, hinv.step hn, hc, ?_⟩
  show ∀ n ∈ list.toList, n.wallet ∈ s.picked
  rw [hl]
  exact he

theorem not_givesUp (hinv : Inv p s) (hs : s.Searching) (he : s.Exhausted) : ¬ GivesUp p s := by
  intro h
  obtain ⟨k, _, hk⟩ := h
  have hrun := (exhausted_trap p).preserved.run (reaches_run _ k s) ⟨hinv, hs, he⟩
  obtain ⟨id, hc⟩ := hrun.2.1
  rcases hc with hc | hc <;> rw [hc] at hk <;> rcases hk with hk | hk <;> cases hk

theorem Ends.halts {order : Shuffled p} (h : Ends p order) : Halts (next p false) (start p order) := by
  obtain ⟨s, hr, hc⟩ := h
  refine ⟨s, hr, ?_⟩
  rcases hc with hc | hc <;> simp only [next, hc]

/-! ### A search that finds an entry -/

/-- How far the control is from the next pick, or from the end. -/
def rank (p : Parameters) (s : State) : Nat :=
  match s.control with
  | .transfers => s.walletList.size + 3
  | .senders =>
    if s.transfer.senders.length < p.sendersPerTransfer.toNat then s.walletList.size + 2
    else s.walletList.size + 3
  | .receivers =>
    if s.transfer.receivers.length < p.receiversPerTransfer.toNat then s.walletList.size + 2
    else s.walletList.size + 4
  | .senderSearch _ | .receiverSearch _ =>
    s.walletList.distance (fun n => decide (n.wallet ∉ s.picked)) + 1
  | .returned | .notEnoughFunds | .undefined => 0

def measure (p : Parameters) (s : State) : Nat × Nat := (s.walletList.size, rank p s)

/-- A pick shortens the list; everything else lowers the rank. -/
def Falls (p : Parameters) (s' s : State) : Prop :=
  Prod.Lex (· < ·) (· < ·) (measure p s') (measure p s)

theorem Falls.of_size (h : s'.walletList.size < s.walletList.size) : Falls p s' s := .left _ _ h

theorem Falls.of_rank (hsize : s'.walletList.size = s.walletList.size) (h : rank p s' < rank p s) :
    Falls p s' s := by
  unfold Falls measure
  rw [hsize]
  exact .right _ h

/-- The rank of a search is at most its list's length and one. -/
theorem rank_searching (h : s.Searching) : rank p s ≤ s.walletList.size + 1 ∧ 0 < rank p s := by
  have hle := s.walletList.distance_le fun n => decide (n.wallet ∉ s.picked)
  obtain ⟨id, hc | hc⟩ := h
  · simp only [rank, hc]
    omega
  · simp only [rank, hc]
    omega

theorem falls_search {resume : WalletId → Control} (hrank : s.walletList.size + 1 < rank p s)
    (hr : ∀ w, ∃ id, resume w = .senderSearch id ∨ resume w = .receiverSearch id) :
    Falls p (s.search resume) s := by
  cases hd : s.walletList.deref with
  | none =>
    rw [State.search_none hd]
    exact .of_rank rfl (Nat.lt_of_le_of_lt (Nat.zero_le _) hrank)
  | some node =>
    rw [State.search_some hd]
    refine .of_rank rfl (Nat.lt_of_le_of_lt ?_ hrank)
    exact (rank_searching (s := {s with control := resume node.wallet}) (hr node.wallet)).1

/-- A search goes towards the entry it will end at. -/
theorem falls_searchOn (hb : Building p s) (h : s.Searching) (hmore : ¬ s.Exhausted) {node : Node}
    (hd : s.walletList.deref = some node) (hpicked : node.wallet ∈ s.picked)
    (hn : s' ∈ next p false s) : Falls p s' s := by
  obtain ⟨list, rest, hl, hr, hr', c, hc, he⟩ := next_searchOn hb h hd hpicked
  obtain rfl : {s with walletList := list, control := c} = s' := Option.some.inj (he.symm.trans hn)
  have hdist : list.distance (fun n => decide (n.wallet ∉ s.picked)) + 1 =
      s.walletList.distance (fun n => decide (n.wallet ∉ s.picked)) := by
    unfold CursorList.distance
    rw [hr, hr']
    apply CursorList.distance_increment (by simpa using hpicked)
    obtain ⟨n, hn, hnew⟩ : ∃ n ∈ s.walletList.toList, n.wallet ∉ s.picked := by
      simpa [State.Exhausted] using hmore
    rw [← CursorList.mem_ring, hr, List.mem_cons] at hn
    rcases hn with rfl | hn
    · exact absurd hpicked hnew
    · exact ⟨n, hn, by simpa using hnew⟩
  refine .of_rank (by simp only [CursorList.size, hl]) ?_
  obtain ⟨id, hs | hs⟩ := h <;> obtain ⟨id', rfl | rfl⟩ := hc <;> simp only [rank, hs] <;> omega

theorem falls_pick {node : Node} {list : CursorList Node}
    (hperm : s.walletList.toList.Perm (node :: list.toList)) (h : s'.walletList = list) :
    Falls p s' s := by
  apply Falls.of_size
  have hsize : s.walletList.size = list.size + 1 := hperm.length_eq
  rw [h]
  omega

theorem measure_fall (hS : 1 ≤ p.sendersPerTransfer.toNat) (hR : 1 ≤ p.receiversPerTransfer.toNat)
    (hinv : Inv p s) (hmore : s.Searching → ¬ s.Exhausted) (hn : s' ∈ next p false s) :
    Falls p s' s := by
  have hp := hinv.progress
  have hb := hinv.building
  cases move_of_next hn with
  | begin hc _ =>
    refine .of_rank rfl ?_
    have hlt : ([] : List (WalletId × CoinList)).length < p.sendersPerTransfer.toNat := hS
    simp only [rank, hc, hlt, if_true]
    omega
  | finish hc _ => exact .of_rank rfl (by simp only [rank, hc]; omega)
  | nextSender hc hlt =>
    refine falls_search ?_ fun w => ⟨w, .inl rfl⟩
    simp only [rank, hc, hlt, if_true]
    omega
  | sendersDone hc hle =>
    rw [hc] at hp
    have hlt : s.transfer.receivers.length < p.receiversPerTransfer.toNat := by rw [hp.1]; exact hR
    refine .of_rank rfl ?_
    simp only [rank, hc, hlt, Nat.not_lt.mpr hle, if_true, if_false]
    omega
  | senderTaken id hc hid =>
    have hs : s.Searching := ⟨id, .inl hc⟩
    obtain ⟨node, hd, _, rfl⟩ := hinv.target (.inl hc)
    exact falls_searchOn (hb hs.building) hs (hmore hs) hd hid hn
  | sender id hc hid =>
    have hs : s.Searching := ⟨id, .inl hc⟩
    obtain ⟨node, hd, _, rfl⟩ := hinv.target (.inl hc)
    rcases pickSender_spec hd p node.wallet with ⟨e, _, he⟩ | ⟨c, e, list, _, _, hperm, _, _, he⟩
    · rw [he]
      exact .of_rank rfl (rank_searching hs).2
    · exact falls_pick hperm (by rw [he])
  | nextReceiver hc hlt =>
    refine falls_search ?_ fun w => ⟨w, .inr rfl⟩
    simp only [rank, hc, hlt, if_true]
    omega
  | push hc hle =>
    refine .of_rank rfl ?_
    simp only [rank, hc, Nat.not_lt.mpr hle, if_false]
    omega
  | receiverTaken id hc hid =>
    have hs : s.Searching := ⟨id, .inr hc⟩
    obtain ⟨node, hd, _, rfl⟩ := hinv.target (.inr hc)
    exact falls_searchOn (hb hs.building) hs (hmore hs) hd hid hn
  | receiver id hc hid =>
    have hs : s.Searching := ⟨id, .inr hc⟩
    obtain ⟨node, hd, _, rfl⟩ := hinv.target (.inr hc)
    obtain ⟨list, _, hperm, _, _, he⟩ := pickReceiver_spec hd p node.wallet
    exact falls_pick hperm (by rw [he])

/-! ### The iterator stays in the list -/

theorem walletsPerTransfer_toNat
    (hsum : p.sendersPerTransfer.toNat + p.receiversPerTransfer.toNat < 2 ^ 64) :
    p.walletsPerTransfer.toNat = p.sendersPerTransfer.toNat + p.receiversPerTransfer.toNat := by
  unfold Parameters.walletsPerTransfer
  rw [UInt64.toNat_add, Nat.mod_eq_of_lt hsum]

/-- There is an entry for every wallet that is still to be picked. -/
theorem Building.deref_ne_none (hb : Building p s) (hw : s.walletList.Wrapped)
    (hsum : p.sendersPerTransfer.toNat + p.receiversPerTransfer.toNat < 2 ^ 64)
    (hlt : s.transfer.senders.length + s.transfer.receivers.length <
      p.sendersPerTransfer.toNat + p.receiversPerTransfer.toNat) :
    ∃ node, s.walletList.deref = some node := by
  have hroom := hb.room
  rw [walletsPerTransfer_toNat hsum, hb.picked, BenchmarkTransfer.wallets, List.length_append,
    List.length_map, List.length_map] at hroom
  apply Option.ne_none_iff_exists'.mp
  intro hn
  have := hw.deref_eq_none.mp hn
  omega

/-- A wallet is still to be picked, and the list is empty. -/
def State.Starved (p : Parameters) (s : State) : Prop :=
  s.walletList.size = 0 ∧
    ((s.control = .senders ∧ s.transfer.senders.length < p.sendersPerTransfer.toNat) ∨
      (s.control = .receivers ∧ s.transfer.receivers.length < p.receiversPerTransfer.toNat))

/-- The iterator is used outside the list only where a search begins in an empty one. -/
theorem starved_of_undefined {stale : Bool} (hinv : Inv p s) (hn : s' ∈ next p stale s)
    (hu : s'.control = .undefined) : s.Starved p := by
  cases move_of_next hn with
  | begin _ _ => cases hu
  | finish _ _ => cases hu
  | nextSender hc hlt =>
    have hd := State.search_undefined (fun _ => Control.noConfusion) hu
    exact ⟨hinv.wrapped.deref_eq_none.mp hd, .inl ⟨hc, hlt⟩⟩
  | sendersDone _ _ => cases hu
  | senderTaken id hc _ =>
    obtain ⟨node, hd, _⟩ := hinv.target (.inl hc)
    exact absurd hu (State.searchOn_defined hd stale (fun _ => Control.noConfusion) Control.noConfusion)
  | sender id hc _ =>
    obtain ⟨node, hd, _, rfl⟩ := hinv.target (.inl hc)
    rcases pickSender_spec hd p node.wallet with ⟨_, _, he⟩ | ⟨_, _, _, _, _, _, _, _, he⟩
    · rw [he] at hu
      cases hu
    · rw [he] at hu
      cases hu
  | nextReceiver hc hlt =>
    have hd := State.search_undefined (fun _ => Control.noConfusion) hu
    exact ⟨hinv.wrapped.deref_eq_none.mp hd, .inr ⟨hc, hlt⟩⟩
  | push _ _ => cases hu
  | receiverTaken id hc _ =>
    obtain ⟨node, hd, _⟩ := hinv.target (.inr hc)
    exact absurd hu (State.searchOn_defined hd stale (fun _ => Control.noConfusion) Control.noConfusion)
  | receiver id hc _ =>
    obtain ⟨node, hd, _, rfl⟩ := hinv.target (.inr hc)
    obtain ⟨_, _, _, _, _, he⟩ := pickReceiver_spec hd p node.wallet
    rw [he] at hu
    cases hu

/-- No step uses the iterator outside the list. -/
theorem defined_step (hsum : p.sendersPerTransfer.toNat + p.receiversPerTransfer.toNat < 2 ^ 64)
    (hinv : Inv p s) (hn : s' ∈ next p false s) : s'.control ≠ .undefined := by
  intro hu
  obtain ⟨hsize, hcase⟩ := starved_of_undefined hinv hn hu
  have hp := hinv.progress
  have hlt : s.transfer.senders.length + s.transfer.receivers.length <
      p.sendersPerTransfer.toNat + p.receiversPerTransfer.toNat := by
    rcases hcase with ⟨hc, hlt⟩ | ⟨hc, hlt⟩
    · rw [hc] at hp
      rw [hp.1, List.length_nil]
      omega
    · rw [hc] at hp
      rw [hp.1]
      omega
  have hb := hinv.building (by rcases hcase with ⟨hc, _⟩ | ⟨hc, _⟩ <;> rw [hc] <;> rfl)
  obtain ⟨node, hd⟩ := hb.deref_ne_none hinv.wrapped hsum hlt
  rw [hinv.wrapped.deref_eq_none.mpr hsize] at hd
  cases hd

theorem defined_reached (hsum : p.sendersPerTransfer.toNat + p.receiversPerTransfer.toNat < 2 ^ 64)
    {order : Shuffled p} (h : Reached p order s) : s.control ≠ .undefined := by
  rcases Relation.ReflTransGen.cases_tail h with rfl | ⟨b, hb, hn⟩
  · exact fun h => by cases h
  · exact defined_step hsum (Inv.reached hb) hn

/-! ### When the run ends -/

theorem ends_of_unpicked (hS : 1 ≤ p.sendersPerTransfer.toNat)
    (hR : 1 ≤ p.receiversPerTransfer.toNat)
    (hsum : p.sendersPerTransfer.toNat + p.receiversPerTransfer.toNat < 2 ^ 64) {order : Shuffled p}
    (hmore : ∀ s, Reached p order s → s.Searching → ¬ s.Exhausted) : Ends p order := by
  obtain ⟨s, hr, hn⟩ := halts_of_measure
    (wellFounded_lt.prod_lex wellFounded_lt) (measure p)
    (I := Reached p order) (fun a b ha hb => ha.tail hb)
    (fun a b ha hb => measure_fall hS hR (Inv.reached ha) (hmore a ha) hb) (start p order) .refl
  refine ⟨s, hr, ?_⟩
  have hdef := defined_reached hsum hr
  unfold next at hn
  split at hn
  · split at hn <;> cases hn
  · split at hn <;> cases hn
  · split at hn <;> cases hn
  · split at hn <;> cases hn
  · split at hn <;> cases hn
  · next hc => exact .inl hc
  · next hc => exact .inr hc
  · next hc => exact absurd hc hdef

/-- **`generate` ends, and an exhausted search gives up within a lap, exactly
when no search is ever exhausted**: every search the run begins has an entry of a
wallet that is not picked yet to come to. -/
theorem ends_iff (p : Parameters) (hS : 1 ≤ p.sendersPerTransfer.toNat)
    (hR : 1 ≤ p.receiversPerTransfer.toNat)
    (hsum : p.sendersPerTransfer.toNat + p.receiversPerTransfer.toNat < 2 ^ 64)
    (order : Shuffled p) :
    (Ends p order ∧ ∀ s, Reached p order s → s.Searching → s.Exhausted → GivesUp p s) ↔
      ∀ s, Reached p order s → s.Searching → ∃ n ∈ s.walletList.toList, n.wallet ∉ s.picked := by
  have hmore : ∀ s : State, (∃ n ∈ s.walletList.toList, n.wallet ∉ s.picked) ↔ ¬ s.Exhausted := by
    intro s
    simp [State.Exhausted]
  simp only [hmore]
  constructor
  · intro h s hr hs he
    exact (exhausted_trap p).not_halts ⟨Inv.reached hr, hs, he⟩ (h.1.halts.of_reaches hr)
  · intro h
    exact ⟨ends_of_unpicked hS hR hsum h, fun s hr hs he => absurd he (h s hr hs)⟩

theorem sixWallets_ends_iff :
    (Ends sixWallets sixOrder ∧
        ∀ s, Reached sixWallets sixOrder s → s.Searching → s.Exhausted → GivesUp sixWallets s) ↔
      ∀ s, Reached sixWallets sixOrder s → s.Searching →
        ∃ n ∈ s.walletList.toList, n.wallet ∉ s.picked :=
  ends_iff sixWallets (by decide) (by decide) (by decide) sixOrder

/-! ### A run that does not end

One wallet, in two of the transfers, one sender and one receiver to a transfer:
once the wallet is the sender there is no receiver, and the search for one goes
round the one entry that is left. -/

def lonelyWallet : Parameters := { numWallets := 1, coinsPerWallet := 1, transfersPerWallet := 2 }

def lonelyOrder : Shuffled lonelyWallet := ⟨[0, 0], by decide⟩

/-- The first test of the search for a receiver. -/
def lonelySearch : State := run (next lonelyWallet false) 6 (start lonelyWallet lonelyOrder)

theorem lonelyWallet_not_ends :
    (1 ≤ lonelyWallet.sendersPerTransfer.toNat ∧ 1 ≤ lonelyWallet.receiversPerTransfer.toNat ∧
        lonelyWallet.sendersPerTransfer.toNat + lonelyWallet.receiversPerTransfer.toNat < 2 ^ 64) ∧
      ¬ Ends lonelyWallet lonelyOrder ∧
      Reached lonelyWallet lonelyOrder lonelySearch ∧ lonelySearch.Searching ∧
      lonelySearch.Exhausted ∧ ¬ GivesUp lonelyWallet lonelySearch := by
  have hr : Reached lonelyWallet lonelyOrder lonelySearch := reaches_run _ 6 _
  have hs : lonelySearch.Searching := ⟨0, .inr (by decide)⟩
  have he : lonelySearch.Exhausted := by unfold State.Exhausted; decide
  refine ⟨by decide, fun h => ?_, hr, hs, he, not_givesUp (Inv.reached hr) hs he⟩
  exact (exhausted_trap lonelyWallet).not_halts ⟨Inv.reached hr, hs, he⟩ (h.halts.of_reaches hr)

end CascadePlayground.Cbdc
