import CascadePlayground.Cbdc.Effects
import CascadePlayground.Cbdc.Termination

/-! How the wallet list is used up.

A pick takes one entry out of the list and puts its wallet into the transfer
under construction, and no search gives up, so nothing that was taken out is
dropped: the wallets of the transfers begun and the entries left make up the
list as it was filled (`Drawn`). The outer loop ends when fewer entries are left
than a transfer takes (`left_of_returned`), and that gives the number of transfers. -/
namespace CascadePlayground.Cbdc
open StateTransition (Reaches)

/-- The wallets that take part in some transfers, with repetitions. -/
def takers (ts : List BenchmarkTransfer) : List WalletId := ts.flatMap BenchmarkTransfer.wallets

/-- The wallets that still have entries in the list, with repetitions. -/
def State.left (s : State) : List WalletId := s.walletList.toList.map Node.wallet

/-- Every entry is in a transfer that was begun, or is left. -/
def Drawn (p : Parameters) (s : State) : Prop := (takers s.begun ++ s.left).Perm p.walletEntries

variable {p : Parameters} {s s' : State}

theorem drawn_start (p : Parameters) (order : Shuffled p) : Drawn p (start p order) := by
  show ((nodes order.entries).map Node.wallet).Perm p.walletEntries
  rw [wallets_nodes]
  exact order.perm

theorem takers_concat (ts : List BenchmarkTransfer) (t : BenchmarkTransfer) :
    takers (ts ++ [t]) = takers ts ++ t.wallets := by
  simp [takers]

/-- An entry that is erased is one that the transfer gains. -/
theorem Drawn.pick {node : Node} {t : BenchmarkTransfer} (h : Drawn p s) (hp : Picks s s' node)
    (hb : s'.begun = s.transfers ++ [t]) (ht : t.wallets = s.transfer.wallets ++ [node.wallet]) :
    Drawn p s' := by
  refine List.Perm.trans ?_ h
  have hleft : s.left.Perm (node.wallet :: s'.left) := hp.list.map Node.wallet
  rw [hb, hp.begun, takers_concat, takers_concat, ht, ← List.append_assoc, List.append_assoc]
  exact hleft.symm.append_left _

theorem Drawn.step (h : Drawn p s) (hi : Inv p s) (hs : s' ∈ next p false s) : Drawn p s' := by
  cases effect_of_next hi hs with
  | quiet hq hb _ =>
    have htakers : takers s'.begun = takers s.begun := by
      rcases hb with hb | hb
      · rw [hb]
      · rw [hb, takers_concat]
        exact List.append_nil _
    unfold Drawn State.left
    rw [htakers, hq.list]
    exact h
  | abandon _ ha _ => exact absurd ha hi.not_abandons
  | sender node c e hc hp _ hb _ _ =>
    have hprogress := hi.progress
    rw [hc] at hprogress
    exact h.pick hp hb (by simp [BenchmarkTransfer.wallets, hprogress.1])
  | receiver node _ hp hb _ _ => exact h.pick hp hb (by simp [BenchmarkTransfer.wallets])
  | short id e _ _ _ hb hl _ _ =>
    unfold Drawn State.left
    rw [hb, hl]
    exact h

theorem Drawn.reached {order : Shuffled p} (h : Reached p order s) : Drawn p s := by
  have hboth : Inv p s ∧ Drawn p s :=
    Transition.Preserved.run (I := fun s => Inv p s ∧ Drawn p s)
      (fun _ _ hs hn => ⟨hs.1.step hn, hs.2.step hs.1 hn⟩) h
      ⟨inv_start p order, drawn_start p order⟩
  exact hboth.2

/-! ### How many transfers there are -/

/-- `generate` returns from the test of the outer loop. -/
theorem left_of_returned {order : Shuffled p} (h : Returns p order s) :
    s.left.length < p.walletsPerTransfer.toNat := by
  obtain ⟨hr, hc⟩ := h
  have hlen : s.left.length = s.walletList.size := List.length_map _
  rw [hlen]
  rcases Relation.ReflTransGen.cases_tail hr with rfl | ⟨b, hb, hn⟩
  · cases hc
  · have hi := Inv.reached hb
    cases effect_of_next hi hn with
    | quiet _ _ hlt => exact hlt hc
    | abandon _ ha _ => exact absurd ha hi.not_abandons
    | sender _ _ _ _ _ _ _ _ hc' => rw [hc] at hc'; cases hc'
    | receiver _ _ _ _ _ hc' => rw [hc] at hc'; cases hc'
    | short _ _ _ _ _ _ _ _ hc' => rw [hc] at hc'; cases hc'

theorem Completed.wallets_length {t : BenchmarkTransfer} (h : Completed p t) :
    t.wallets.length = p.sendersPerTransfer.toNat + p.receiversPerTransfer.toNat := by
  rw [BenchmarkTransfer.wallets, List.length_append, List.length_map, List.length_map, h.senderCount,
    h.receiverCount]

theorem takers_length {ts : List BenchmarkTransfer} (h : ∀ t ∈ ts, Completed p t) :
    (takers ts).length =
      (p.sendersPerTransfer.toNat + p.receiversPerTransfer.toNat) * ts.length := by
  have hlen : ts.map (fun t => t.wallets.length) =
      ts.map fun _ => p.sendersPerTransfer.toNat + p.receiversPerTransfer.toNat :=
    List.map_congr_left fun t ht => (h t ht).wallets_length
  rw [takers, List.length_flatMap, hlen, List.map_const', List.sum_replicate_nat, Nat.mul_comm]

/-- The entries of the list, at the return of `generate`. -/
theorem drawn_of_returns {order : Shuffled p} (h : Returns p order s) :
    (takers s.transfers ++ s.left).Perm p.walletEntries := by
  have hdrawn := Drawn.reached h.1
  rw [Drawn, State.begun, State.current, h.2, List.append_nil] at hdrawn
  exact hdrawn

theorem takers_length_of_returns {order : Shuffled p} (h : Returns p order s) :
    (p.sendersPerTransfer.toNat + p.receiversPerTransfer.toNat) * s.transfers.length + s.left.length =
      p.numWallets.toNat * p.transfersPerWallet.toNat := by
  have hlen := (drawn_of_returns h).length_eq
  rw [List.length_append, takers_length (Inv.reached h.1).recorded, Parameters.walletEntries,
    Parameters.repeated_eq, List.length_map, List.length_range] at hlen
  exact hlen

/-- **The wallet list is used exactly**: as many transfers as its length allows, and
every wallet takes part, or is left in the list, as often as `-t` says. -/
theorem wallet_list_used (p : Parameters)
    (hpos : 1 ≤ p.sendersPerTransfer.toNat + p.receiversPerTransfer.toNat)
    (hsum : p.sendersPerTransfer.toNat + p.receiversPerTransfer.toNat < 2 ^ 64) (order : Shuffled p)
    (s : State) (h : Returns p order s) :
    s.transfers.length = p.numWallets.toNat * p.transfersPerWallet.toNat /
        (p.sendersPerTransfer.toNat + p.receiversPerTransfer.toNat) ∧
      ∀ w < p.numWallets.toNat,
        (takers s.transfers).count w + s.left.count w = p.transfersPerWallet.toNat ∧
        (takers s.transfers).count w ≤ p.transfersPerWallet.toNat ∧
        (p.sendersPerTransfer.toNat + p.receiversPerTransfer.toNat ∣
            p.numWallets.toNat * p.transfersPerWallet.toNat →
          (takers s.transfers).count w = p.transfersPerWallet.toNat) := by
  have hlen := takers_length_of_returns h
  have hleft := left_of_returned h
  rw [walletsPerTransfer_toNat hsum] at hleft
  have hdiv : p.numWallets.toNat * p.transfersPerWallet.toNat /
      (p.sendersPerTransfer.toNat + p.receiversPerTransfer.toNat) = s.transfers.length := by
    rw [← hlen, Nat.mul_add_div hpos, Nat.div_eq_of_lt hleft, Nat.add_zero]
  refine ⟨hdiv.symm, fun w hw => ?_⟩
  have hcount := (drawn_of_returns h).count_eq w
  rw [List.count_append, Parameters.walletEntries, Parameters.count_repeated, if_pos hw] at hcount
  refine ⟨hcount, by omega, fun hdvd => ?_⟩
  -- nothing is left when the transfers come out even
  have hmod : s.left.length = 0 := by
    rw [← hlen, (Nat.dvd_add_right (Nat.dvd_mul_right _ _))] at hdvd
    exact Nat.eq_zero_of_dvd_of_lt hdvd hleft
  rw [List.length_eq_zero_iff.mp hmod] at hcount
  simpa using hcount

theorem sixEnd_used :
    sixEnd.transfers.length = 3 * 2 / (2 + 1) ∧
      ∀ w < 3, (takers sixEnd.transfers).count w + sixEnd.left.count w = 2 ∧
        (takers sixEnd.transfers).count w ≤ 2 ∧
        (2 + 1 ∣ 3 * 2 → (takers sixEnd.transfers).count w = 2) :=
  wallet_list_used sixWallets (by decide) (by decide) sixOrder sixEnd sixEnd_returns

end CascadePlayground.Cbdc
