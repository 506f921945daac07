import CascadePlayground.Cbdc.Invariant

/-! The shape of every transfer a workload records.

A recorded transfer is `Completed`. What that means for the coin lists follows
from `recv_pairs` being the senders' coin entries with their values divided:
every receiver gets the same list, one entry for each sender, in the senders'
order. -/
namespace CascadePlayground.Cbdc

theorem recvPairs_eq (p : Parameters) (senders : List (WalletId × CoinList)) :
    recvPairs p senders = (senders.flatMap Prod.snd).map fun coin => (coin.1, p.valueIn coin.2) := by
  simp [recvPairs, List.map_flatMap]

/-- The coin entries of the senders, in their order. -/
def BenchmarkTransfer.spent (t : BenchmarkTransfer) : CoinList := t.senders.flatMap Prod.snd

variable {p : Parameters} {t : BenchmarkTransfer}

/-- Each sender spends one coin. -/
theorem WellFormed.spent_length (h : WellFormed p t) : t.spent.length = t.senders.length := by
  rw [BenchmarkTransfer.spent, List.length_flatMap]
  have hone : t.senders.map (fun x => x.2.length) = t.senders.map fun _ => 1 := by
    apply List.map_congr_left
    intro x hx
    obtain ⟨c, _, hc⟩ := h.senders x hx
    rw [hc]
    rfl
  simp [hone]

theorem WellFormed.spent_value (h : WellFormed p t) {coin : CoinId × CoinValue}
    (hc : coin ∈ t.spent) : coin.2 = p.transferValuePerWallet := by
  obtain ⟨x, hx, hcx⟩ := List.mem_flatMap.mp hc
  obtain ⟨c, _, he⟩ := h.senders x hx
  rw [he] at hcx
  rw [List.mem_singleton.mp hcx]

theorem WellFormed.received (h : WellFormed p t) {y : WalletId × CoinList} (hy : y ∈ t.receivers) :
    y.2 = t.spent.map fun coin => (coin.1, p.valueIn coin.2) := by
  rw [h.receivers y hy, recvPairs_eq]
  rfl

theorem WellFormed.received_value (h : WellFormed p t) {y : WalletId × CoinList}
    (hy : y ∈ t.receivers) {coin : CoinId × CoinValue} (hc : coin ∈ y.2) :
    coin.2 = p.valueIn p.transferValuePerWallet := by
  rw [h.received hy] at hc
  obtain ⟨c, hspent, rfl⟩ := List.mem_map.mp hc
  show p.valueIn c.2 = _
  rw [h.spent_value hspent]

/-- **The shape of a recorded transfer**: the senders and receivers asked for, all
of them different wallets; one coin of its own for each sender; the senders'
coins, in their order and each with one value, for every receiver. -/
theorem transfers_shape (p : Parameters) (order : Shuffled p) (s : State) (h : Returns p order s) :
    ∀ t ∈ s.transfers,
      t.senders.length = p.sendersPerTransfer.toNat ∧
      t.receivers.length = p.receiversPerTransfer.toNat ∧
      (t.senders.map Prod.fst ++ t.receivers.map Prod.fst).Nodup ∧
      (∀ w ∈ t.senders.map Prod.fst ++ t.receivers.map Prod.fst, w < p.numWallets.toNat) ∧
      (∀ x ∈ t.senders, ∃ coin, x.2 = [coin] ∧
        coin.1 ∈ (s.wallets.getD x.1 []).map Prod.fst) ∧
      (∀ y ∈ t.receivers, y.2.length = p.sendersPerTransfer.toNat ∧
        y.2.map Prod.fst = t.senders.flatMap fun x => x.2.map Prod.fst) ∧
      (∀ y ∈ t.receivers, ∀ y' ∈ t.receivers, ∀ coin ∈ y.2, ∀ coin' ∈ y'.2,
        coin.1 = coin'.1 → coin.2 = coin'.2) := by
  intro t ht
  have hinv := Inv.reached h.1
  have hc := hinv.recorded t ht
  refine ⟨hc.senderCount, hc.receiverCount, hc.distinct, hc.bound, fun x hx => ?_, fun y hy => ?_,
    fun y hy y' hy' coin hcoin coin' hcoin' _ => ?_⟩
  · obtain ⟨c, hcoin, he⟩ := hc.senders x hx
    refine ⟨_, he, ?_⟩
    rw [hinv.coins, Parameters.coins_eq, List.map_map]
    simpa using hcoin
  · constructor
    · rw [hc.received hy, List.length_map, hc.spent_length, hc.senderCount]
    · rw [hc.received hy, List.map_map, BenchmarkTransfer.spent, List.map_flatMap]
      rfl
  · rw [hc.received_value hy hcoin, hc.received_value hy' hcoin']

theorem sixEnd_shape :
    sixFirst ∈ sixEnd.transfers ∧ (sixFirst.senders.map Prod.fst ++ sixFirst.receivers.map Prod.fst).Nodup :=
  ⟨by decide, (transfers_shape sixWallets sixOrder sixEnd sixEnd_returns sixFirst (by decide)).2.2.1⟩

end CascadePlayground.Cbdc
