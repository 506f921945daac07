import CascadePlayground.Cbdc.Accounted

/-! The coins of a run are conserved.

`mintUpdates` and `updates` list every `+=` and `-=` on an entry of
`expected_final_values`: those of the minting loops (`mint_updates`) and those of
a step of the machine (`next_updates`). None of them wraps. The coins that are
minted have new ids, a debit has been checked, and what is credited of a coin has
been debited before.

What the holders of a coin have together is what was minted of it, less what the
divisions by the number of receivers have left over (`coinTotal_eq`). -/
namespace CascadePlayground.Cbdc
open Ledger

/-! ### The updates of the minting loops -/

theorem allFit_concat {e : Balances} {us : List Update} {u : Update} :
    AllFit e (us ++ [u]) ↔ AllFit e us ∧ u.Fits (us.foldl Update.apply e) := by
  induction us generalizing e with
  | nil => simp [AllFit]
  | cons v us ih => simp only [List.cons_append, AllFit, ih, List.foldl_cons, and_assoc]

namespace Parameters
variable (p : Parameters)

/-- The additions of the first `i` iterations. -/
def mintUpdatesUpTo (i : Nat) : List Update :=
  (List.range i).map fun t => .add (t / p.coinsPerWallet.toNat, t % 2 ^ 64) p.coinInitialValue

def mintUpdates : List Update := p.mintUpdatesUpTo p.coinCount

/-- The minting loops make these additions, and each of them to a new entry. -/
theorem mint_updatesUpTo (i : Nat) (hi : 0 < i → 0 < p.coinsPerWallet.toNat) :
    (((List.range i).map (· / p.coinsPerWallet.toNat)).foldl p.mintCoin ⟨0, ∅, ∅⟩).expectedFinalValues =
        (p.mintUpdatesUpTo i).foldl Update.apply ∅ ∧
      AllFit ∅ (p.mintUpdatesUpTo i) := by
  induction i with
  | zero => exact ⟨rfl, trivial⟩
  | succ i ih =>
    have hc := hi (Nat.succ_pos i)
    obtain ⟨hfold, hfit⟩ := ih fun _ => hc
    have hmint := p.mintedUpTo_foldl i fun _ => hc
    have habsent := hmint.absent hc
    have hsucc : p.mintUpdatesUpTo (i + 1) = p.mintUpdatesUpTo i ++
        [.add (i / p.coinsPerWallet.toNat, i % 2 ^ 64) p.coinInitialValue] := by
      simp only [mintUpdatesUpTo, List.range_succ, List.map_append, List.map_cons, List.map_nil]
    rw [hmint.cid, hfold] at habsent
    refine ⟨?_, ?_⟩
    · rw [hsucc, List.range_succ, List.map_append, List.foldl_append, List.foldl_append, ← hfold,
        ← hmint.cid]
      rfl
    · rw [hsucc, allFit_concat]
      refine ⟨hfit, ?_⟩
      show (Balances.val _ _).toNat + _ < _
      rw [Balances.val_eq, habsent]
      simpa using p.coinInitialValue.toNat_lt

theorem mint_updates :
    p.mint.expectedFinalValues = p.mintUpdates.foldl Update.apply ∅ ∧ AllFit ∅ p.mintUpdates := by
  unfold mint
  rw [repeated_eq]
  exact p.mint_updatesUpTo p.coinCount fun h => Nat.pos_of_mul_pos_left h

end Parameters

/-! ### The updates of a step -/

/-- The updates that `next` makes from `s` on. -/
def updates (p : Parameters) (s : State) : List Update :=
  match s.control with
  | .senderSearch id =>
    if id ∈ s.picked then [] else
      match (findCoin p.transferValuePerWallet id (s.wallets.getD id []) s.expectedFinalValues).1 with
      | none => []
      | some c => [.sub (id, c) p.transferValuePerWallet]
  | .receiverSearch id =>
    if id ∈ s.picked then [] else creditUpdates id (recvPairs p s.transfer.senders)
  | _ => []

variable {p : Parameters} {s s' : State}

theorem search_expected (s : State) (resume : WalletId → Control) :
    (s.search resume).expectedFinalValues = s.expectedFinalValues := by
  unfold State.search
  split <;> rfl

theorem searchOn_expected (s : State) (stale : Bool) (resume : WalletId → Control)
    (giveUp : Control) : (s.searchOn stale resume giveUp).expectedFinalValues = s.expectedFinalValues := by
  unfold State.searchOn
  split
  · rfl
  · dsimp only
    split
    · rfl
    · exact search_expected _ _

/-- In a run, a step changes the balances by its updates. -/
theorem next_updates (hi : Inv p s) (ha : Accounted p s) (hs : s' ∈ next p false s) :
    s'.expectedFinalValues = (updates p s).foldl Update.apply s.expectedFinalValues := by
  cases move_of_next hs with
  | begin hc _ => simp only [updates, hc, List.foldl_nil]
  | finish hc _ => simp only [updates, hc, List.foldl_nil]
  | nextSender hc _ => simp only [updates, hc, List.foldl_nil, search_expected]
  | sendersDone hc _ => simp only [updates, hc, List.foldl_nil]
  | senderTaken id hc hid =>
    simp only [updates, hc, hid, if_true, List.foldl_nil, searchOn_expected]
  | sender id hc hid =>
    obtain ⟨node, hd, _, _⟩ := hi.target (.inl hc)
    have hsame := ha.findCoin hi (by rw [hc]; exact fun h => by cases h) id
    rcases pickSender_spec hd p id with ⟨e, hfound, he⟩ | ⟨c, e, list, hfound, _, _, _, _, he⟩
    · rw [hfound] at hsame
      simp only [he, updates, hc, hid, if_false, hfound, List.foldl_nil]
      exact hsame
    · rw [hfound] at hsame
      simp only [he, updates, hc, hid, if_false, hfound, List.foldl_cons, List.foldl_nil]
      exact congrArg (Balances.subAssign · _ _) hsame
  | nextReceiver hc _ => simp only [updates, hc, List.foldl_nil, search_expected]
  | push hc _ => simp only [updates, hc, List.foldl_nil]
  | receiverTaken id hc hid =>
    simp only [updates, hc, hid, if_true, List.foldl_nil, searchOn_expected]
  | receiver id hc hid =>
    obtain ⟨node, hd, _, _⟩ := hi.target (.inr hc)
    obtain ⟨list, _, _, _, _, he⟩ := pickReceiver_spec hd p id
    simp only [he, updates, hc, hid, if_false, creditPairs_eq]

/-- The updates of a step fit. -/
theorem updates_fit (hi : Inv p s) (ha : Accounted p s) (hcoins : p.coinCount < 2 ^ 64) :
    AllFit s.expectedFinalValues (updates p s) := by
  unfold updates
  split
  · next id hc =>
    split
    · exact trivial
    · have hsame := ha.findCoin hi (by rw [hc]; exact fun h => by cases h) id
      split
      · exact trivial
      · next c hfound =>
        -- the source has compared the balance with the amount
        have hle : p.transferValuePerWallet ≤ s.expectedFinalValues.val (id, c) :=
          (findCoin_some (Prod.ext hfound hsame)).2
        exact ⟨hle, trivial⟩
  · next id hc =>
    split
    · exact trivial
    · next hid => exact (ha.credits hi hcoins hc hid).1
  · exact trivial

/-! ### The total of a coin -/

/-- What all wallets have of the coin. -/
def coinTotal (p : Parameters) (e : Balances) (c : CoinId) : Nat :=
  ∑ w ∈ Finset.range p.numWallets.toNat, (e.val (w, c)).toNat

theorem coinTotal_eq (hcoins : p.coinCount < 2 ^ 64) (hi : Inv p s) (ha : Accounted p s)
    (hc : s.control = .transfers ∨ s.control = .returned) {w : WalletId} {c : CoinId}
    (hcoin : c ∈ p.coinIds w) :
    coinTotal p s.expectedFinalValues c +
        spends c s.transfers * (p.transferValuePerWallet.toNat % p.receiversPerTransfer.toNat) =
      p.coinInitialValue.toNat := by
  have hbegun : s.begun = s.transfers := by
    rcases hc with hc | hc <;> simp [State.begun, State.current, hc]
  have hbook := ha (by rcases hc with hc | hc <;> rw [hc] <;> decide)
  rw [hbegun] at hbook
  have hsum := executeAll_sum (holders p c) (postings s.transfers) hbook
  rw [posted_completed hi.recorded, sum_holders, sum_holders, sum_minted hcoins hcoin] at hsum
  simp only [Balances.book_value] at hsum
  unfold coinTotal
  omega

/-- **Every coin is conserved and no balance wraps.** After every completed transfer
and at the return of `generate`, what the wallets have of a coin and what the
divisions have left over of it make up its initial value; and in every state of
the run the updates to come fit, as those of the minting loops do. -/
theorem coins_conserved (p : Parameters)
    (hcoins : p.numWallets.toNat * p.coinsPerWallet.toNat < 2 ^ 64) (order : Shuffled p) (s : State)
    (h : Reached p order s) :
    (s.control = .transfers ∨ s.control = .returned →
      ∀ w, ∀ coin ∈ s.wallets.getD w [],
        coinTotal p s.expectedFinalValues coin.1 + spends coin.1 s.transfers *
            (p.transferValue.toNat * p.receiversPerTransfer.toNat % 2 ^ 32 %
              p.receiversPerTransfer.toNat) = p.coinInitialValue.toNat ∧
          (p.transferValue.toNat * p.receiversPerTransfer.toNat < 2 ^ 32 →
            coinTotal p s.expectedFinalValues coin.1 = p.coinInitialValue.toNat)) ∧
      AllFit ∅ p.mintUpdates ∧ AllFit s.expectedFinalValues (updates p s) ∧
      ∀ s' ∈ next p false s,
        s'.expectedFinalValues = (updates p s).foldl Update.apply s.expectedFinalValues := by
  have hi := Inv.reached h
  have ha := Accounted.reached hcoins h
  refine ⟨fun hc w coin hcoin => ?_, p.mint_updates.2, updates_fit hi ha hcoins,
    fun s' hs => next_updates hi ha hs⟩
  rw [hi.coins, Parameters.mem_coins] at hcoin
  have htotal := coinTotal_eq hcoins hi ha hc hcoin.1
  rw [transferValuePerWallet_toNat] at htotal
  refine ⟨htotal, fun hsmall => ?_⟩
  rw [Nat.mod_eq_of_lt hsmall, Nat.mul_mod_left, Nat.mul_zero, Nat.add_zero] at htotal
  exact htotal

theorem sixEnd_conserved :
    (sixEnd.control = .transfers ∨ sixEnd.control = .returned →
      ∀ w, ∀ coin ∈ sixEnd.wallets.getD w [],
        coinTotal sixWallets sixEnd.expectedFinalValues coin.1 + spends coin.1 sixEnd.transfers *
            (10 * 1 % 2 ^ 32 % 1) = 15 ∧
          (10 * 1 < 2 ^ 32 → coinTotal sixWallets sixEnd.expectedFinalValues coin.1 = 15)) ∧
      AllFit ∅ sixWallets.mintUpdates ∧ AllFit sixEnd.expectedFinalValues (updates sixWallets sixEnd) ∧
      ∀ s' ∈ next sixWallets false sixEnd, s'.expectedFinalValues =
        (updates sixWallets sixEnd).foldl Update.apply sixEnd.expectedFinalValues :=
  coins_conserved sixWallets (by decide) sixOrder sixEnd sixEnd_returns.1

end CascadePlayground.Cbdc
