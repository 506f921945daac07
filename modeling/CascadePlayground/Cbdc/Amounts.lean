import CascadePlayground.Cbdc.Usage

/-! The amounts of a transfer.

`-v` is the amount that goes to each receiver, so a sender owes that amount for
each of them. The product is computed in 64 bits and stored in 32, and the senders,
the funds check and the receivers all go by what is stored. So the amounts are the
ones asked for exactly when the product is below `2 ^ 32` (`exact_iff`), which no
option is checked for. -/
namespace CascadePlayground.Cbdc
open Ledger

/-- The sum of some coin entries. -/
def coinSum (l : CoinList) : Nat := (l.map fun coin => coin.2.toNat).sum

/-- The amounts are the ones that the options ask for. -/
structure Exact (p : Parameters) (t : BenchmarkTransfer) : Prop where
  debited : ∀ x ∈ t.senders,
    coinSum x.2 = p.transferValue.toNat * p.receiversPerTransfer.toNat
  credited : ∀ y ∈ t.receivers, y.2 = t.spent.map fun coin => (coin.1, p.transferValue)
  balanced : ∀ c, posted (holders p c) t.posting.debits = posted (holders p c) t.posting.credits

variable {p : Parameters} {s : State} {t : BenchmarkTransfer}

theorem WellFormed.coinSum_sender (h : WellFormed p t) {x : WalletId × CoinList} (hx : x ∈ t.senders) :
    coinSum x.2 = p.transferValue.toNat * p.receiversPerTransfer.toNat % 2 ^ 32 := by
  obtain ⟨c, _, hc⟩ := h.senders x hx
  rw [hc, ← transferValuePerWallet_toNat]
  exact Nat.add_zero _

/-- What is divided back is the amount asked for, if nothing of the product was lost. -/
theorem valueIn_of_lt (hR : 1 ≤ p.receiversPerTransfer.toNat)
    (h : p.transferValue.toNat * p.receiversPerTransfer.toNat < 2 ^ 32) :
    p.valueIn p.transferValuePerWallet = p.transferValue := by
  apply UInt32.toNat_inj.mp
  rw [valueIn_toNat, transferValuePerWallet_toNat, Nat.mod_eq_of_lt h]
  exact Nat.mul_div_cancel _ hR

theorem Completed.exact (hR : 1 ≤ p.receiversPerTransfer.toNat) (h : Completed p t)
    (hlt : p.transferValue.toNat * p.receiversPerTransfer.toNat < 2 ^ 32) : Exact p t := by
  have hvalue := valueIn_of_lt hR hlt
  refine ⟨fun x hx => ?_, fun y hy => ?_, fun c => ?_⟩
  · rw [h.coinSum_sender hx, Nat.mod_eq_of_lt hlt]
  · rw [h.received hy]
    apply List.map_congr_left
    intro coin hcoin
    rw [h.spent_value hcoin, hvalue]
  · rw [h.posted_debits, h.posted_credits, hvalue, h.receiverCount, transferValuePerWallet_toNat,
      Nat.mod_eq_of_lt hlt]
    ring

theorem exact_iff (hS : 1 ≤ p.sendersPerTransfer.toNat) (hR : 1 ≤ p.receiversPerTransfer.toNat)
    (h : Completed p t) :
    Exact p t ↔ p.transferValue.toNat * p.receiversPerTransfer.toNat < 2 ^ 32 := by
  refine ⟨fun hexact => ?_, h.exact hR⟩
  obtain ⟨x, hx⟩ : ∃ x, x ∈ t.senders := by
    apply List.exists_mem_of_ne_nil
    intro hnil
    have hcount := h.senderCount
    rw [hnil] at hcount
    exact Nat.not_succ_le_zero 0 (Nat.le_trans hS (Nat.le_of_eq hcount.symm))
  -- the sender has been debited a 32-bit number
  rw [← hexact.debited x hx, h.coinSum_sender hx]
  exact Nat.mod_lt _ (by decide)

/-- Too few entries for a transfer is what it takes to return without one. -/
theorem transfers_eq_nil_iff {order : Shuffled p} (h : Returns p order s) :
    s.transfers = [] ↔ p.numWallets.toNat * p.transfersPerWallet.toNat <
      p.sendersPerTransfer.toNat + p.receiversPerTransfer.toNat := by
  have hlen := takers_length_of_returns h
  have hleft := left_of_returned h
  have hwpt : p.walletsPerTransfer.toNat ≤
      p.sendersPerTransfer.toNat + p.receiversPerTransfer.toNat := by
    rw [Parameters.walletsPerTransfer, UInt64.toNat_add]
    exact Nat.mod_le _ _
  constructor
  · intro hnil
    rw [hnil, List.length_nil, Nat.mul_zero, Nat.zero_add] at hlen
    omega
  · intro hlt
    by_contra hne
    have hmul := Nat.le_mul_of_pos_right
      (p.sendersPerTransfer.toNat + p.receiversPerTransfer.toNat) (List.length_pos_iff.mpr hne)
    omega

/-- **The amounts are exact as long as the product fits in 32 bits**: in a run that
returns, all transfers are as the options ask for exactly when it does, or when the
wallets are too few for a transfer. -/
theorem amounts_exact_iff (p : Parameters) (hS : 1 ≤ p.sendersPerTransfer.toNat)
    (hR : 1 ≤ p.receiversPerTransfer.toNat) (order : Shuffled p) (s : State) (h : Returns p order s) :
    (∀ t ∈ s.transfers, Exact p t) ↔
      p.transferValue.toNat * p.receiversPerTransfer.toNat < 2 ^ 32 ∨
        p.numWallets.toNat * p.transfersPerWallet.toNat <
          p.sendersPerTransfer.toNat + p.receiversPerTransfer.toNat := by
  have hrecorded := (Inv.reached h.1).recorded
  rw [← transfers_eq_nil_iff h]
  constructor
  · intro hexact
    rcases List.eq_nil_or_concat s.transfers with hnil | ⟨ts, t, hts⟩
    · exact .inr hnil
    · have ht : t ∈ s.transfers := by simp [hts]
      exact .inl ((exact_iff hS hR (hrecorded t ht)).mp (hexact t ht))
  · intro hcase t ht
    rcases hcase with hlt | hnil
    · exact (exact_iff hS hR (hrecorded t ht)).mpr hlt
    · rw [hnil] at ht
      cases ht

theorem sixEnd_amounts :
    (∀ t ∈ sixEnd.transfers, Exact sixWallets t) ↔ 10 * 1 < 2 ^ 32 ∨ 3 * 2 < 2 + 1 :=
  amounts_exact_iff sixWallets (by decide) (by decide) sixOrder sixEnd sixEnd_returns

/-! ### A product that does not fit

Half of `2 ^ 32` for each of two receivers: the sender is debited nothing. -/

def halfEach : Parameters := { numWallets := 3, receiversPerTransfer := 2, transferValue := 2147483648 }

def halfOrder : Shuffled halfEach := ⟨[0, 1, 2], by decide⟩

def halfEnd : State := Transition.run (next halfEach false) 20 (start halfEach halfOrder)

theorem halfEach_not_exact :
    1 ≤ halfEach.sendersPerTransfer.toNat ∧ 1 ≤ halfEach.receiversPerTransfer.toNat ∧
      Returns halfEach halfOrder halfEnd ∧
      halfEnd.transfers = [⟨[(0, [(0, 0)])], [(1, [(0, 0)]), (2, [(0, 0)])]⟩] ∧
      ¬ ∀ t ∈ halfEnd.transfers, Exact halfEach t := by
  have htransfers : halfEnd.transfers = [⟨[(0, [(0, 0)])], [(1, [(0, 0)]), (2, [(0, 0)])]⟩] := by decide
  refine ⟨by decide, by decide, ⟨Transition.reaches_run _ 20 _, by decide⟩, htransfers, fun h => ?_⟩
  rw [htransfers] at h
  have hdebited := (h _ (List.mem_cons_self ..)).debited (0, [(0, 0)]) (List.mem_cons_self ..)
  have hsum : coinSum [((0 : CoinId), (0 : CoinValue))] = 0 := rfl
  rw [hsum] at hdebited
  exact absurd hdebited (by decide)

end CascadePlayground.Cbdc
