import CascadePlayground.Cbdc.Accounted

/-! What a step does to the balances, the wallet list and the transfers.

`Move` tells the steps apart by where the control stands. Most of them only move
the control or the iterator. `Effect` tells them apart by what they change: a pick
debits a sender or credits a receiver, takes its entry out of the list and puts it
into the transfer under construction; `finish` drops that transfer; a wallet
without a coin for the amount ends the run.

With iterators told apart by their nodes no transfer is dropped (`Inv.not_abandons`). -/
namespace CascadePlayground.Cbdc

/-- The search loop's increment leads to `finish`. -/
def State.Abandons (stale : Bool) (s : State) : Prop :=
  (∃ id ∈ s.picked, s.control = .senderSearch id ∨ s.control = .receiverSearch id) ∧
    ∃ list, s.walletList.increment = some list ∧
      ({s with walletList := list.wrap} : State).atStarted stale = true

/-- The balances, the coins and the entries of the list stay as they are. -/
structure Quiet (s s' : State) : Prop where
  list : s'.walletList.toList = s.walletList.toList
  expected : s'.expectedFinalValues = s.expectedFinalValues
  going : s'.control ≠ .notEnoughFunds

/-- A pick of the wallet under the iterator. -/
structure Picks (s s' : State) (node : Node) : Prop where
  fresh : node.wallet ∉ s.picked
  list : s.walletList.toList.Perm (node :: s'.walletList.toList)
  begun : s.begun = s.transfers ++ [s.transfer]

inductive Effect (p : Parameters) (stale : Bool) (s s' : State) : Prop where
  | quiet : Quiet s s' → s'.begun = s.begun ∨ s'.begun = s.begun ++ [⟨[], []⟩] →
      (s'.control = .returned → s'.walletList.size < p.walletsPerTransfer.toNat) → Effect p stale s s'
  | abandon : Quiet s s' → s.Abandons stale → s.begun = s'.begun ++ [s.transfer] → Effect p stale s s'
  | sender (node : Node) (c : CoinId) (e : Balances) : s.control = .senderSearch node.wallet →
      Picks s s' node →
      findCoin p.transferValuePerWallet node.wallet (s.wallets.getD node.wallet [])
        s.expectedFinalValues = (some c, e) →
      s'.begun = s.transfers ++ [{s.transfer with
        senders := s.transfer.senders ++ [(node.wallet, [(c, p.transferValuePerWallet)])]}] →
      s'.expectedFinalValues = e.subAssign (node.wallet, c) p.transferValuePerWallet →
      s'.control = .senders → Effect p stale s s'
  | receiver (node : Node) : s.control = .receiverSearch node.wallet → Picks s s' node →
      s'.begun = s.transfers ++ [{s.transfer with
        receivers := s.transfer.receivers ++ [(node.wallet, recvPairs p s.transfer.senders)]}] →
      s'.expectedFinalValues =
        creditPairs node.wallet (recvPairs p s.transfer.senders) s.expectedFinalValues →
      s'.control = .receivers → Effect p stale s s'
  | short (id : WalletId) (e : Balances) : s.control = .senderSearch id → id ∉ s.picked →
      findCoin p.transferValuePerWallet id (s.wallets.getD id []) s.expectedFinalValues = (none, e) →
      s'.begun = s.begun → s'.walletList = s.walletList → s'.expectedFinalValues = e →
      s'.control = .notEnoughFunds → Effect p stale s s'

variable {p : Parameters} {stale : Bool} {s s' : State}

theorem effect_search {resume : WalletId → Control}
    (hb : ∀ c, c = .undefined ∨ (∃ w, c = resume w) → ({s with control := c} : State).begun = s.begun)
    (hr : ∀ w, resume w ≠ .notEnoughFunds ∧ resume w ≠ .returned) :
    Effect p stale s (s.search resume) := by
  cases hd : s.walletList.deref with
  | none =>
    rw [State.search_none hd]
    exact .quiet ⟨rfl, rfl, fun h => by cases h⟩ (.inl (hb _ (.inl rfl))) fun h => by cases h
  | some node =>
    rw [State.search_some hd]
    exact .quiet ⟨rfl, rfl, (hr _).1⟩ (.inl (hb _ (.inr ⟨_, rfl⟩))) fun h => absurd h (hr _).2

/-- A search that goes on is quiet, or drops the transfer. -/
theorem effect_searchOn {node : Node} (hd : s.walletList.deref = some node) {id : WalletId}
    (hid : id ∈ s.picked) (hc : s.control = .senderSearch id ∨ s.control = .receiverSearch id)
    {resume : WalletId → Control} {giveUp : Control}
    (hr : ∀ w, resume w = .senderSearch w ∨ resume w = .receiverSearch w)
    (hg : giveUp = .returned ∨ giveUp = .transfers) :
    Effect p stale s (s.searchOn stale resume giveUp) := by
  have hbegun : s.begun = s.transfers ++ [s.transfer] := by
    rcases hc with hc | hc <;> simp [State.begun, State.current, hc]
  obtain ⟨list, hi, hl, _⟩ := CursorList.increment_of_deref hd
  have htoList : list.wrap.toList = s.walletList.toList := by rw [CursorList.toList_wrap, hl]
  rw [State.searchOn_increment hi]
  by_cases hs : ({s with walletList := list.wrap} : State).atStarted stale = true
  · rw [if_pos hs]
    refine .abandon ⟨htoList, rfl, ?_⟩ ⟨⟨id, hid, hc⟩, list, hi, hs⟩ ?_
    · rcases hg with rfl | rfl <;> exact fun h => by cases h
    · rw [hbegun]
      rcases hg with rfl | rfl <;> simp [State.begun, State.current]
  · rw [if_neg hs]
    cases hn : list.wrap.deref with
    | none =>
      rw [State.search_none (s := {s with walletList := list.wrap}) hn]
      exact .quiet ⟨htoList, rfl, fun h => by cases h⟩ (.inl hbegun.symm) fun h => by cases h
    | some node' =>
      rw [State.search_some (s := {s with walletList := list.wrap}) hn]
      rcases hr node'.wallet with hw | hw
      · rw [hw]
        exact .quiet ⟨htoList, rfl, fun h => by cases h⟩ (.inl hbegun.symm) fun h => by cases h
      · rw [hw]
        exact .quiet ⟨htoList, rfl, fun h => by cases h⟩ (.inl hbegun.symm) fun h => by cases h

/-- What a step can do. -/
theorem effect_of_next (hi : Inv p s) (hs : s' ∈ next p stale s) : Effect p stale s s' := by
  cases move_of_next hs with
  | begin hc _ =>
    refine .quiet ⟨rfl, rfl, fun h => by cases h⟩ (.inr ?_) fun h => by cases h
    simp [State.begun, State.current, hc]
  | finish hc hlt =>
    refine .quiet ⟨rfl, rfl, fun h => by cases h⟩ (.inl ?_) fun _ => hlt
    simp [State.begun, State.current, hc]
  | nextSender hc _ =>
    refine effect_search (fun c hcase => ?_) fun w => ⟨Control.noConfusion, Control.noConfusion⟩
    rcases hcase with rfl | ⟨w, rfl⟩ <;> simp [State.begun, State.current, hc]
  | sendersDone hc _ =>
    refine .quiet ⟨rfl, rfl, fun h => by cases h⟩ (.inl ?_) fun h => by cases h
    simp [State.begun, State.current, hc]
  | senderTaken id hc hid =>
    obtain ⟨node, hd, _, _⟩ := hi.target (.inl hc)
    exact effect_searchOn hd hid (.inl hc) (fun w => .inl rfl) (.inl rfl)
  | sender id hc hid =>
    obtain ⟨node, hd, _, rfl⟩ := hi.target (.inl hc)
    have hbegun : s.begun = s.transfers ++ [s.transfer] := by simp [State.begun, State.current, hc]
    rcases pickSender_spec hd p node.wallet with ⟨e, hf, he⟩ | ⟨c, e, list, hf, _, hperm, _, _, he⟩
    · rw [he]
      exact .short node.wallet e hc hid hf hbegun.symm rfl rfl rfl
    · rw [he]
      exact .sender node c e hc ⟨hid, hperm, hbegun⟩ hf rfl rfl rfl
  | nextReceiver hc _ =>
    refine effect_search (fun c hcase => ?_) fun w => ⟨Control.noConfusion, Control.noConfusion⟩
    rcases hcase with rfl | ⟨w, rfl⟩ <;> simp [State.begun, State.current, hc]
  | push hc _ =>
    refine .quiet ⟨rfl, rfl, fun h => by cases h⟩ (.inl ?_) fun h => by cases h
    simp [State.begun, State.current, hc]
  | receiverTaken id hc hid =>
    obtain ⟨node, hd, _, _⟩ := hi.target (.inr hc)
    exact effect_searchOn hd hid (.inr hc) (fun w => .inr rfl) (.inr rfl)
  | receiver id hc hid =>
    obtain ⟨node, hd, _, rfl⟩ := hi.target (.inr hc)
    have hbegun : s.begun = s.transfers ++ [s.transfer] := by simp [State.begun, State.current, hc]
    obtain ⟨list, _, hperm, _, _, he⟩ := pickReceiver_spec hd p node.wallet
    rw [he]
    exact .receiver node hc ⟨hid, hperm, hbegun⟩ rfl rfl rfl

/-- No transfer is dropped, iterators told apart by their nodes. -/
theorem Inv.not_abandons (hi : Inv p s) : ¬ s.Abandons false := by
  intro h
  obtain ⟨⟨id, hid, hc⟩, list, hl, hs⟩ := h
  have hb := hi.building (by rcases hc with hc | hc <;> rw [hc] <;> rfl)
  obtain ⟨node, hd, rfl⟩ := hb.target id hc
  obtain ⟨list', hl', htoList, rest, _, hring⟩ := CursorList.increment_of_deref hd
  obtain rfl : list' = list := Option.some.inj (hl'.symm.trans hl)
  have hne : list'.wrap.deref ≠ none := by
    rw [list'.wrapped_wrap.deref, CursorList.ring_wrap, hring]
    cases rest <;> simp
  rw [hb.not_atStarted (List.ne_nil_of_mem hid) (by rw [CursorList.toList_wrap, htoList]) hne] at hs
  cases hs

end CascadePlayground.Cbdc
