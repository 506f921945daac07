import CascadePlayground.Cbdc.Building

/-! What holds in every state of every run of `generate`.

`Inv` collects it; a step keeps it (`Inv.step`), move by move, whatever a
comparison with an erased node gives. While a transfer is built (`Building`),
`picked` is the list of its wallets, the list has the entries that are still
needed, and `started` names the node under the iterator until the first pick and
no node of the list after it. So, with iterators told apart by their nodes, the
test for `started` never succeeds in a search (`Building.not_atStarted`). -/
namespace CascadePlayground.Cbdc
open StateTransition (Reaches)

def Control.building : Control → Bool
  | .senders | .senderSearch _ | .receivers | .receiverSearch _ => true
  | .transfers | .returned | .notEnoughFunds | .undefined => false

/-- How much of a transfer there is at each loop test. -/
def Progress (p : Parameters) (t : BenchmarkTransfer) : Control → Prop
  | .senders => t.receivers = [] ∧ t.senders.length ≤ p.sendersPerTransfer.toNat
  | .senderSearch _ => t.receivers = [] ∧ t.senders.length < p.sendersPerTransfer.toNat
  | .receivers => t.senders.length = p.sendersPerTransfer.toNat ∧
      t.receivers.length ≤ p.receiversPerTransfer.toNat
  | .receiverSearch _ => t.senders.length = p.sendersPerTransfer.toNat ∧
      t.receivers.length < p.receiversPerTransfer.toNat
  | .notEnoughFunds => t.receivers = []
  | .transfers | .returned | .undefined => True

/-- While a transfer is built. -/
structure Building (p : Parameters) (s : State) : Prop where
  picked : s.picked = s.transfer.wallets
  target : ∀ id, s.control = .senderSearch id ∨ s.control = .receiverSearch id →
    ∃ node, s.walletList.deref = some node ∧ node.wallet = id
  fresh : s.picked = [] → s.started = s.walletList.deref.map Node.id
  erased : s.picked ≠ [] → ∀ n ∈ s.walletList.toList, s.started ≠ some n.id
  room : p.walletsPerTransfer.toNat ≤ s.walletList.size + s.picked.length

structure Inv (p : Parameters) (s : State) : Prop where
  recorded : ∀ t ∈ s.transfers, Completed p t
  wellFormed : WellFormed p s.transfer
  progress : Progress p s.transfer s.control
  coins : ∀ w, s.wallets.getD w [] = p.coins w
  wallets : s.control ≠ .notEnoughFunds → s.wallets = p.mint.wallets
  ids : (s.walletList.toList.map Node.id).Nodup
  entries : ∀ n ∈ s.walletList.toList, n.wallet < p.numWallets.toNat
  wrapped : s.walletList.Wrapped
  building : s.control.building = true → Building p s

theorem ids_nodes (l : List WalletId) : (nodes l).map Node.id = List.range l.length := by
  unfold nodes
  rw [List.map_map, List.range_eq_range']
  exact List.zipIdx_map_snd 0 l

theorem wallets_nodes (l : List WalletId) : (nodes l).map Node.wallet = l := by
  unfold nodes
  rw [List.map_map]
  exact List.zipIdx_map_fst 0 l

theorem inv_start (p : Parameters) (order : Shuffled p) : Inv p (start p order) where
  recorded := fun _ h => absurd h List.not_mem_nil
  wellFormed := wellFormed_nil p
  progress := trivial
  coins := p.mint_getD
  wallets := fun _ => rfl
  ids := by
    show ((nodes order.entries).map Node.id).Nodup
    rw [ids_nodes]
    exact List.nodup_range
  entries := by
    intro n hn
    have hw : n.wallet ∈ (nodes order.entries).map Node.wallet := List.mem_map_of_mem hn
    rw [wallets_nodes] at hw
    exact p.mem_walletEntries (order.perm.mem_iff.mp hw)
  wrapped := CursorList.wrapped_ofList _
  building := fun h => by cases h

variable {p : Parameters} {s : State}

/-- A search is for the wallet under the iterator. -/
theorem Inv.target (h : Inv p s) {id : WalletId}
    (hc : s.control = .senderSearch id ∨ s.control = .receiverSearch id) :
    ∃ node, s.walletList.deref = some node ∧ node ∈ s.walletList.toList ∧ node.wallet = id := by
  have hb := h.building (by rcases hc with hc | hc <;> rw [hc] <;> rfl)
  obtain ⟨node, hd, hw⟩ := hb.target id hc
  exact ⟨node, hd, CursorList.mem_of_deref hd, hw⟩

theorem mem_coinIds_of_findCoin {amount : CoinValue} {id : WalletId} {coins : CoinList}
    {e e' : Balances} {c : CoinId} (hcoins : coins = p.coins id)
    (h : findCoin amount id coins e = (some c, e')) : c ∈ p.coinIds id := by
  have hm := (findCoin_some h).1
  rw [hcoins, p.coins_eq, List.map_map] at hm
  simpa using hm

/-! ### The parts that move the iterator -/

/-- Reading the wallet under the iterator starts a search for it. -/
theorem Building.search {node : Node} (hb : Building p s) (hd : s.walletList.deref = some node)
    {c : Control} (hc : ∀ id, c = .senderSearch id ∨ c = .receiverSearch id → node.wallet = id) :
    Building p {s with control := c} :=
  ⟨hb.picked, fun id hid => ⟨node, hd, hc id hid⟩, hb.fresh, hb.erased, hb.room⟩

/-- Going round the list, once something has been picked. -/
theorem Building.walk {list : CursorList Node} {node : Node} (hb : Building p s)
    (hpicked : s.picked ≠ []) (hl : list.toList = s.walletList.toList) (hd : list.deref = some node)
    {c : Control} (hc : ∀ id, c = .senderSearch id ∨ c = .receiverSearch id → node.wallet = id) :
    Building p {s with walletList := list, control := c} := by
  refine ⟨hb.picked, fun id hid => ⟨node, hd, hc id hid⟩, fun h => absurd h hpicked, fun _ => ?_, ?_⟩
  · show ∀ n ∈ list.toList, s.started ≠ some n.id
    rw [hl]
    exact hb.erased hpicked
  · show p.walletsPerTransfer.toNat ≤ list.size + s.picked.length
    have hsize : list.size = s.walletList.size := by rw [CursorList.size, hl]; rfl
    rw [hsize]
    exact hb.room

/-- A pick erases the node under the iterator. After the first one of a transfer
the node `started` names is gone. -/
theorem Building.pick {node : Node} {s' : State} {w : WalletId} (hb : Building p s)
    (hids : (s.walletList.toList.map Node.id).Nodup) (hd : s.walletList.deref = some node)
    (hperm : s.walletList.toList.Perm (node :: s'.walletList.toList))
    (hpicked : s'.picked = s.picked ++ [w]) (hstarted : s'.started = s.started)
    (hwallets : s'.transfer.wallets = s.transfer.wallets ++ [w])
    (hc : ∀ id, s'.control ≠ .senderSearch id ∧ s'.control ≠ .receiverSearch id) :
    Building p s' := by
  have hnot : node.id ∉ s'.walletList.toList.map Node.id := by
    have := (hperm.map Node.id).nodup_iff.mp hids
    rw [List.map_cons, List.nodup_cons] at this
    exact this.1
  refine ⟨by rw [hpicked, hwallets, hb.picked], fun i hi => ?_, fun h => ?_, fun _ n hn => ?_, ?_⟩
  · rcases hi with hi | hi
    · exact absurd hi (hc i).1
    · exact absurd hi (hc i).2
  · rw [hpicked] at h
    simp at h
  · rw [hstarted]
    by_cases hp : s.picked = []
    · rw [hb.fresh hp, hd]
      intro he
      have he : node.id = n.id := Option.some.inj he
      exact hnot (he ▸ List.mem_map_of_mem hn)
    · exact hb.erased hp n (hperm.mem_iff.mpr (List.mem_cons_of_mem _ hn))
  · have hsize : s.walletList.size = s'.walletList.size + 1 := hperm.length_eq
    have hlen : s'.picked.length = s.picked.length + 1 := by rw [hpicked, List.length_append]; rfl
    have := hb.room
    omega

/-! ### Every move keeps the invariant -/

/-- A move of the control that leaves the list and the transfer as they are. -/
theorem Inv.goto (h : Inv p s) {c : Control} (hp : Progress p s.transfer c)
    (hf : s.control ≠ .notEnoughFunds) (hb : c.building = true → Building p {s with control := c}) :
    Inv p {s with control := c} :=
  ⟨h.recorded, h.wellFormed, hp, h.coins, fun _ => h.wallets hf, h.ids, h.entries, h.wrapped, hb⟩

theorem Inv.begin (h : Inv p s) (hc : s.control = .transfers)
    (hs : p.walletsPerTransfer.toNat ≤ s.walletList.size) :
    Inv p {s with
      control := .senders
      transfer := ⟨[], []⟩
      picked := []
      started := s.walletList.deref.map Node.id } where
  recorded := h.recorded
  wellFormed := wellFormed_nil p
  progress := ⟨rfl, Nat.zero_le _⟩
  coins := h.coins
  wallets := fun _ => h.wallets (by rw [hc]; decide)
  ids := h.ids
  entries := h.entries
  wrapped := h.wrapped
  building := fun _ =>
    ⟨rfl, fun id hid => (by rcases hid with hid | hid <;> cases hid), fun _ => rfl,
      fun hne => absurd rfl hne, hs⟩

/-- Reading the next wallet: a search for it begins, or the list was empty. -/
theorem Inv.search (h : Inv p s) (hb : Building p s) (hf : s.control ≠ .notEnoughFunds)
    {resume : WalletId → Control} (hr : ∀ w, Progress p s.transfer (resume w))
    (hresume : ∀ w id, resume w = .senderSearch id ∨ resume w = .receiverSearch id → w = id) :
    Inv p (s.search resume) := by
  cases hd : s.walletList.deref with
  | none =>
    rw [State.search_none hd]
    exact h.goto trivial hf (fun hc => by cases hc)
  | some node =>
    rw [State.search_some hd]
    exact h.goto (hr node.wallet) hf fun _ => hb.search hd (hresume node.wallet)

theorem Inv.searchOn (h : Inv p s) (hb : Building p s) (hf : s.control ≠ .notEnoughFunds)
    {id : WalletId} (hid : s.control = .senderSearch id ∨ s.control = .receiverSearch id)
    (hpicked : id ∈ s.picked) (stale : Bool) {resume : WalletId → Control} {giveUp : Control}
    (hr : ∀ w, Progress p s.transfer (resume w)) (hg : Progress p s.transfer giveUp)
    (hgb : giveUp.building = false)
    (hresume : ∀ w id, resume w = .senderSearch id ∨ resume w = .receiverSearch id → w = id) :
    Inv p (s.searchOn stale resume giveUp) := by
  obtain ⟨node, hd, _⟩ := hb.target id hid
  obtain ⟨list, hl, hw, _, hcase⟩ := State.searchOn_spec hd stale resume giveUp
  have hids : (list.toList.map Node.id).Nodup := by rw [hl]; exact h.ids
  have hentries : ∀ n ∈ list.toList, n.wallet < p.numWallets.toNat := by rw [hl]; exact h.entries
  rcases hcase with ⟨_, he⟩ | ⟨_, node', hn, he⟩
  · rw [he]
    exact ⟨h.recorded, h.wellFormed, hg, h.coins, fun _ => h.wallets hf, hids, hentries, hw,
      fun hc => by rw [hgb] at hc; cases hc⟩
  · rw [he]
    exact ⟨h.recorded, h.wellFormed, hr node'.wallet, h.coins, fun _ => h.wallets hf, hids, hentries,
      hw, fun _ => hb.walk (List.ne_nil_of_mem hpicked) hl hn (hresume node'.wallet)⟩

theorem Inv.pickSender (h : Inv p s) (hb : Building p s) {id : WalletId}
    (hc : s.control = .senderSearch id) (hpicked : id ∉ s.picked) : Inv p (s.pickSender p id) := by
  obtain ⟨node, hd, rfl⟩ := hb.target id (.inl hc)
  have hf : s.control ≠ .notEnoughFunds := by rw [hc]; exact fun h => by cases h
  have hprogress := h.progress
  rw [hc] at hprogress
  obtain ⟨hnil, hlt⟩ := hprogress
  rcases pickSender_spec hd p node.wallet with ⟨e, _, he⟩ | ⟨c, e, list, hfound, hw, hperm, hsub, _, he⟩
  · rw [he]
    exact ⟨h.recorded, h.wellFormed, hnil, fun w => by rw [getD_insertIfNew]; exact h.coins w,
      fun hne => absurd rfl hne, h.ids, h.entries, h.wrapped, fun hb => by cases hb⟩
  · have hcoin : c ∈ p.coinIds node.wallet := mem_coinIds_of_findCoin (h.coins _) hfound
    have hwallet : node.wallet < p.numWallets.toNat :=
      h.entries node (hperm.mem_iff.mpr (List.mem_cons_self ..))
    -- no receiver has been picked yet
    have ht : s.transfer = ⟨s.transfer.senders, []⟩ := by rw [← hnil]
    have hwf : WellFormed p {s.transfer with
        senders := s.transfer.senders ++ [(node.wallet, [(c, p.transferValuePerWallet)])]} := by
      rw [ht]
      refine WellFormed.addSender (ht ▸ h.wellFormed) ?_ hwallet hcoin
      rw [← ht, ← hb.picked]
      exact hpicked
    rw [he]
    refine ⟨h.recorded, hwf, ⟨hnil, ?_⟩, h.coins, fun _ => h.wallets hf,
      h.ids.sublist (hsub.map _), fun n hn => h.entries n (hsub.subset hn), hw, fun _ => ?_⟩
    · show (s.transfer.senders ++ _).length ≤ _
      rw [List.length_append]
      exact hlt
    · refine hb.pick (w := node.wallet) h.ids hd hperm rfl rfl ?_ fun i => ⟨fun h => ?_, fun h => ?_⟩
      · simp [BenchmarkTransfer.wallets, hnil]
      · cases h
      · cases h

theorem Inv.pickReceiver (h : Inv p s) (hb : Building p s) {id : WalletId}
    (hc : s.control = .receiverSearch id) (hpicked : id ∉ s.picked) :
    Inv p (s.pickReceiver p id) := by
  obtain ⟨node, hd, rfl⟩ := hb.target id (.inr hc)
  have hf : s.control ≠ .notEnoughFunds := by rw [hc]; exact fun h => by cases h
  have hprogress := h.progress
  rw [hc] at hprogress
  obtain ⟨hsenders, hlt⟩ := hprogress
  obtain ⟨list, hw, hperm, hsub, _, he⟩ := pickReceiver_spec hd p node.wallet
  have hwallet : node.wallet < p.numWallets.toNat :=
    h.entries node (hperm.mem_iff.mpr (List.mem_cons_self ..))
  rw [he]
  refine ⟨h.recorded, h.wellFormed.addReceiver (by rw [← hb.picked]; exact hpicked) hwallet,
    ⟨hsenders, ?_⟩, h.coins, fun _ => h.wallets hf, h.ids.sublist (hsub.map _),
    fun n hn => h.entries n (hsub.subset hn), hw, fun _ => ?_⟩
  · show (s.transfer.receivers ++ _).length ≤ _
    rw [List.length_append]
    exact hlt
  · refine hb.pick (w := node.wallet) h.ids hd hperm rfl rfl ?_ fun i => ⟨fun h => ?_, fun h => ?_⟩
    · simp [BenchmarkTransfer.wallets]
    · cases h
    · cases h

theorem Inv.push (h : Inv p s) (hc : s.control = .receivers)
    (hr : p.receiversPerTransfer.toNat ≤ s.transfer.receivers.length) :
    Inv p {s with control := .transfers, transfers := s.transfers ++ [s.transfer]} := by
  have hprogress := h.progress
  rw [hc] at hprogress
  refine ⟨fun t ht => ?_, h.wellFormed, trivial, h.coins, fun _ => h.wallets (by rw [hc]; decide),
    h.ids, h.entries, h.wrapped, fun hb => by cases hb⟩
  rcases List.mem_append.mp ht with ht | ht
  · exact h.recorded t ht
  · rw [List.mem_singleton.mp ht]
    exact ⟨h.wellFormed, hprogress.1, Nat.le_antisymm hprogress.2 hr⟩

theorem Inv.step {stale : Bool} {s' : State} (h : Inv p s) (hs : s' ∈ next p stale s) : Inv p s' := by
  have hp := h.progress
  have hb := h.building
  cases move_of_next hs with
  | begin hc hsize => exact h.begin hc hsize
  | finish hc _ => exact h.goto trivial (by rw [hc]; decide) (fun hc => by cases hc)
  | nextSender hc hlt =>
    rw [hc] at hp hb
    exact h.search (hb rfl) (by rw [hc]; decide) (fun _ => ⟨hp.1, hlt⟩) (by simp)
  | sendersDone hc hle =>
    rw [hc] at hp hb
    refine h.goto ⟨Nat.le_antisymm hp.2 hle, by rw [hp.1]; exact Nat.zero_le _⟩ (by rw [hc]; decide) ?_
    intro _
    exact ⟨(hb rfl).picked, fun id hid => (by rcases hid with hid | hid <;> cases hid),
      (hb rfl).fresh, (hb rfl).erased, (hb rfl).room⟩
  | senderTaken id hc hid =>
    rw [hc] at hp hb
    exact h.searchOn (hb rfl) (by rw [hc]; simp) (.inl hc) hid stale (fun _ => hp) trivial rfl (by simp)
  | sender id hc hid =>
    rw [hc] at hb
    exact h.pickSender (hb rfl) hc hid
  | nextReceiver hc hlt =>
    rw [hc] at hp hb
    exact h.search (hb rfl) (by rw [hc]; decide) (fun _ => ⟨hp.1, hlt⟩) (by simp)
  | push hc hle => exact h.push hc hle
  | receiverTaken id hc hid =>
    rw [hc] at hp hb
    exact h.searchOn (hb rfl) (by rw [hc]; simp) (.inr hc) hid stale (fun _ => hp) trivial rfl (by simp)
  | receiver id hc hid =>
    rw [hc] at hb
    exact h.pickReceiver (hb rfl) hc hid

/-- The invariant holds in every state of a run. -/
theorem Inv.reached {order : Shuffled p} (h : Reached p order s) : Inv p s :=
  Transition.Preserved.run (fun _ _ hi hs => hi.step hs) h (inv_start p order)

/-! ### A search never comes back to `started` -/

/-- Once something has been picked, no live node is the one `started` names. -/
theorem Building.not_atStarted (hb : Building p s) (hpicked : s.picked ≠ [])
    {list : CursorList Node} (hl : list.toList = s.walletList.toList) (hne : list.deref ≠ none) :
    ({s with walletList := list} : State).atStarted false = false := by
  unfold State.atStarted
  have herased := hb.erased hpicked
  rw [← hl] at herased
  cases hs : s.started with
  | none => simpa [Option.isSome_iff_ne_none] using hne
  | some id =>
    have hnot : id ∉ list.toList.map Node.id := by
      intro hm
      obtain ⟨n, hn, rfl⟩ := List.mem_map.mp hm
      exact herased n hn hs
    simp [hnot]

/-- So a search that goes on reads the next wallet of the ring. -/
theorem Building.searchOn_false {id : WalletId} (hb : Building p s)
    (hid : s.control = .senderSearch id ∨ s.control = .receiverSearch id) (hpicked : id ∈ s.picked)
    (resume : WalletId → Control) (giveUp : Control) :
    ∃ list : CursorList Node, ∃ node node' rest, list.toList = s.walletList.toList ∧ list.Wrapped ∧
      s.walletList.deref = some node ∧ node.wallet = id ∧
      s.walletList.ring = node :: rest ∧ list.ring = rest ++ [node] ∧ list.deref = some node' ∧
      s.searchOn false resume giveUp =
        {s with walletList := list, control := resume node'.wallet} := by
  obtain ⟨node, hd, hw⟩ := hb.target id hid
  obtain ⟨list, hl, hwr, ⟨rest, hr, hr'⟩, hcase⟩ := State.searchOn_spec hd false resume giveUp
  rcases hcase with ⟨ht, _⟩ | ⟨_, node', hn, he⟩
  · -- the list holds the entry of `id`, so the iterator is not `end()`
    have hne : list.deref ≠ none := by
      rw [hwr.deref, hr']
      cases rest <;> simp
    rw [hb.not_atStarted (List.ne_nil_of_mem hpicked) hl hne] at ht
    cases ht
  · exact ⟨list, node, node', rest, hl, hwr, hd, hw, hr, hr', hn, he⟩

end CascadePlayground.Cbdc
