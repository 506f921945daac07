import CascadePlayground.Cbdc.Leftover

/-! When the iterator leaves the list.

The outer loop compares the length of the list with a 64-bit sum. Where the sum
does not wrap there is an entry for every pick (`defined_reached`). Where it does, a
transfer takes more wallets than there are, none is ever completed
(`transfers_of_wrapped`), and the first one that is begun picks until something
else stops it: a wallet without funds, a search that finds only picked wallets, or
the end of the list. Which of them it is depends on the parameters alone
(`cursor_valid_iff`). -/
namespace CascadePlayground.Cbdc
open StateTransition (Reaches)
open Transition

namespace Parameters
variable (p : Parameters)

/-- The first sending of every wallet is covered. -/
def Funded : Prop := 1 ≤ p.coinsPerWallet.toNat ∧ p.amount ≤ p.coinInitialValue.toNat

/-- The sum wraps, the list passes the test of the outer loop, and every wallet in
it can be picked, with none left after that. -/
def RunsOut : Prop :=
  2 ^ 64 ≤ p.sendersPerTransfer.toNat + p.receiversPerTransfer.toNat ∧
    p.sendersPerTransfer.toNat + p.receiversPerTransfer.toNat ≤
      2 ^ 64 + p.numWallets.toNat * p.transfersPerWallet.toNat ∧
    (p.numWallets.toNat * p.transfersPerWallet.toNat = 0 ∨
      (p.transfersPerWallet.toNat = 1 ∧ p.Funded))

end Parameters

variable {p : Parameters} {s s' : State}

theorem Completed.not_wrapped {t : BenchmarkTransfer} (h : Completed p t) :
    p.sendersPerTransfer.toNat + p.receiversPerTransfer.toNat < 2 ^ 64 := by
  have hsub : t.wallets ⊆ List.range p.numWallets.toNat := fun w hw => List.mem_range.mpr (h.bound w hw)
  have hle := (List.subperm_of_subset h.distinct hsub).length_le
  rw [h.wallets_length, List.length_range] at hle
  exact Nat.lt_of_le_of_lt hle p.numWallets.toNat_lt

section Wrapped
variable {order : Shuffled p}
  (hwrap : 2 ^ 64 ≤ p.sendersPerTransfer.toNat + p.receiversPerTransfer.toNat)
include hwrap

theorem walletsPerTransfer_of_wrapped : p.walletsPerTransfer.toNat + 2 ^ 64 =
    p.sendersPerTransfer.toNat + p.receiversPerTransfer.toNat := by
  have hS := p.sendersPerTransfer.toNat_lt
  have hR := p.receiversPerTransfer.toNat_lt
  rw [Parameters.walletsPerTransfer, UInt64.toNat_add]
  omega

theorem transfers_of_wrapped (h : Reached p order s) : s.transfers = [] := by
  apply List.eq_nil_iff_forall_not_mem.mpr
  intro t ht
  have hlt := ((Inv.reached h).recorded t ht).not_wrapped
  omega

theorem begun_of_wrapped (h : Reached p order s) (hc : s.control.building = true) :
    s.begun = [s.transfer] := by
  rw [State.begun, transfers_of_wrapped hwrap h]
  unfold State.current
  split <;> simp_all [Control.building]

/-- The wallets of the only transfer and those left are those of the list. -/
theorem drawn_of_wrapped (h : Reached p order s) (hc : s.control.building = true) :
    (s.transfer.wallets ++ s.left).Perm p.walletEntries := by
  have hdrawn := Drawn.reached h
  rw [Drawn, begun_of_wrapped hwrap h hc, takers, List.flatMap_singleton] at hdrawn
  exact hdrawn

/-- A wallet that has not been picked still has what was minted for it. -/
theorem untouched_of_wrapped (h : Reached p order s) {w : WalletId} (hc : s.control = .senderSearch w)
    (hw : w ∉ s.picked) {c : CoinId} (hcoin : c ∈ p.coinIds w) :
    s.expectedFinalValues.val (w, c) = p.coinInitialValue := by
  have hbuilding : s.control.building = true := by rw [hc]; rfl
  have happlied := (applied_of_safe h.safe).2
  rw [((Inv.reached h).building hbuilding).picked] at hw
  rw [Applied, begun_of_wrapped hwrap h hbuilding] at happlied
  rw [happlied]
  show (applyTransfer p.mint.expectedFinalValues s.transfer).val (w, c) = _
  rw [applyTransfer_val hw, Balances.val_eq, p.mint_expected, if_pos hcoin]
  rfl

theorem covers_of_wrapped (h : Reached p order s) {w : WalletId} (hc : s.control = .senderSearch w)
    (hw : w ∉ s.picked) {c : CoinId} (hcoin : c ∈ p.coinIds w) :
    p.transferValuePerWallet ≤ s.expectedFinalValues.val (w, c) ↔
      p.amount ≤ p.coinInitialValue.toNat := by
  rw [untouched_of_wrapped hwrap h hc hw hcoin, UInt32.le_iff_toNat_le, p.amount_eq]

/-- A sender has been picked only if every first sending is covered. -/
theorem funded_of_wrapped (h : Reached p order s) : ∀ t ∈ s.begun, t.senders ≠ [] → p.Funded := by
  unfold Reached at h
  induction h with
  | refl => exact fun t ht => absurd ht List.not_mem_nil
  | @tail b s' hr hn ih =>
    have hi := Inv.reached hr
    intro t ht hne
    cases effect_of_next hi hn with
    | quiet _ hb _ =>
      rcases hb with hb | hb
      · exact ih t (hb ▸ ht) hne
      · rw [hb, List.mem_append, List.mem_singleton] at ht
        rcases ht with ht | rfl
        · exact ih t ht hne
        · exact absurd rfl hne
    | abandon _ ha _ => exact absurd ha hi.not_abandons
    | sender node c e hc hp hf _ _ _ =>
      have hle := (findCoin_some hf).2
      have hval := findCoin_val p.transferValuePerWallet node.wallet
        (b.wallets.getD node.wallet []) b.expectedFinalValues (node.wallet, c)
      rw [hf] at hval
      have hcoin : c ∈ p.coinIds node.wallet := mem_coinIds_of_findCoin (hi.coins _) hf
      refine ⟨?_, (covers_of_wrapped hwrap hr hc hp.fresh hcoin).mp (hval ▸ hle)⟩
      rw [← p.coinIds_length (p.coinIds_wallet hcoin)]
      exact List.length_pos_of_mem hcoin
    | receiver node hc hp hb _ _ =>
      rw [hb, transfers_of_wrapped hwrap hr, List.nil_append, List.mem_singleton] at ht
      refine ih b.transfer ?_ (by rw [ht] at hne; exact hne)
      rw [hp.begun]
      exact List.mem_append.mpr (.inr (List.mem_cons_self ..))
    | short _ _ _ _ _ hb _ _ _ => exact ih t (hb ▸ ht) hne

/-- The first wallet to be picked is a sender. -/
theorem senders_ne_nil_of_starved (hi : Inv p s)
    (hcase : (s.control = .senders ∧ s.transfer.senders.length < p.sendersPerTransfer.toNat) ∨
      (s.control = .receivers ∧ s.transfer.receivers.length < p.receiversPerTransfer.toNat))
    (hpos : 0 < s.transfer.wallets.length) : s.transfer.senders ≠ [] := by
  intro hnil
  have hprogress := hi.progress
  rcases hcase with ⟨hc, _⟩ | ⟨hc, _⟩
  · -- no receiver is picked before the senders are
    rw [hc] at hprogress
    rw [BenchmarkTransfer.wallets, hnil, hprogress.1] at hpos
    exact absurd hpos (Nat.lt_irrefl 0)
  · -- with no sender asked for, the sum of the two numbers does not wrap
    rw [hc] at hprogress
    have hR := p.receiversPerTransfer.toNat_lt
    have hzero := hprogress.1
    rw [hnil, List.length_nil] at hzero
    omega

/-- An empty list, with wallets still to be picked. -/
theorem runsOut_of_starved (h : Reached p order s) (hs : s.Starved p) : p.RunsOut := by
  obtain ⟨hsize, hcase⟩ := hs
  have hi := Inv.reached h
  have hbuilding : s.control.building = true := by
    rcases hcase with ⟨hc, _⟩ | ⟨hc, _⟩ <;> rw [hc] <;> rfl
  have hb := hi.building hbuilding
  have hperm : s.transfer.wallets.Perm p.walletEntries := by
    have hleft : s.left = [] := by
      rw [State.left, List.length_eq_zero_iff.mp hsize]
      rfl
    have hdrawn := drawn_of_wrapped hwrap h hbuilding
    rw [hleft, List.append_nil] at hdrawn
    exact hdrawn
  have hlen : s.picked.length = p.numWallets.toNat * p.transfersPerWallet.toNat := by
    rw [hb.picked, hperm.length_eq, Parameters.walletEntries, Parameters.repeated_eq, List.length_map,
      List.length_range]
  refine ⟨hwrap, ?_, ?_⟩
  · have hroom := hb.room
    have hsum := walletsPerTransfer_of_wrapped hwrap
    omega
  · rcases Nat.eq_zero_or_pos (p.numWallets.toNat * p.transfersPerWallet.toNat) with hzero | hpos
    · exact .inl hzero
    · have hW := Nat.pos_of_mul_pos_right hpos
      have hT := Nat.pos_of_mul_pos_left hpos
      -- no wallet is picked twice
      have hcount := List.nodup_iff_count_le_one.mp hi.wellFormed.distinct 0
      rw [hperm.count_eq, Parameters.walletEntries, Parameters.count_repeated, if_pos hW] at hcount
      refine .inr ⟨Nat.le_antisymm hcount hT, ?_⟩
      apply funded_of_wrapped hwrap h s.transfer
      · rw [begun_of_wrapped hwrap h hbuilding]
        exact List.mem_singleton_self _
      · refine senders_ne_nil_of_starved hwrap hi hcase ?_
        rw [← hb.picked, hlen]
        exact hpos

end Wrapped

/-! ### The list does run out -/

namespace Parameters.RunsOut
variable {order : Shuffled p} (hp : p.RunsOut)
include hp

/-- No wallet is in the list twice. -/
theorem nodup : p.walletEntries.Nodup := by
  rcases hp.2.2 with hzero | ⟨hT, _⟩
  · have hnil : p.walletEntries = [] := by
      apply List.length_eq_zero_iff.mp
      rw [walletEntries, repeated_eq, List.length_map, List.length_range, hzero]
    rw [hnil]
    exact List.nodup_nil
  · apply List.nodup_iff_count_le_one.mpr
    intro w
    rw [walletEntries, count_repeated, hT]
    split
    · exact Nat.le_refl _
    · exact Nat.zero_le _

/-- A search finds what it comes to first. -/
theorem not_exhausted (h : Reached p order s) (hs : s.Searching) : ¬ s.Exhausted := by
  intro he
  have hb := (Inv.reached h).building hs.building
  obtain ⟨node, _, hm, _⟩ := hb.searching hs
  have hnodup := (drawn_of_wrapped hp.1 h hs.building).nodup_iff.mpr hp.nodup
  have hpicked := he node hm
  rw [hb.picked] at hpicked
  exact (List.nodup_append.mp hnodup).2.2 _ hpicked _ (List.mem_map_of_mem hm) rfl

theorem not_returned (h : Reached p order s) : s.control ≠ .returned := by
  intro hc
  have hleft := left_of_returned ⟨h, hc⟩
  have hlen := takers_length_of_returns ⟨h, hc⟩
  rw [transfers_of_wrapped hp.1 h, List.length_nil, Nat.mul_zero, Nat.zero_add] at hlen
  have hsum := walletsPerTransfer_of_wrapped hp.1
  have hle := hp.2.1
  omega

theorem enough (h : Reached p order s) : s.control ≠ .notEnoughFunds := by
  intro hc
  rcases Relation.ReflTransGen.cases_tail h with rfl | ⟨b, hb, hn⟩
  · cases hc
  · have hi := Inv.reached hb
    cases effect_of_next hi hn with
    | quiet hq _ _ => exact hq.going hc
    | abandon hq _ _ => exact hq.going hc
    | sender _ _ _ _ _ _ _ _ hc' => rw [hc] at hc'; cases hc'
    | receiver _ _ _ _ _ hc' => rw [hc] at hc'; cases hc'
    | short w e hcb hw hf _ _ _ _ =>
      have hbuilding : b.control.building = true := by rw [hcb]; rfl
      obtain ⟨node, _, hm, rfl⟩ := hi.target (.inl hcb)
      have hwallet := hi.entries node hm
      have hfunded : p.Funded := by
        rcases hp.2.2 with hzero | ⟨_, hfunded⟩
        · -- there is an entry under the iterator
          have hlen := (drawn_of_wrapped hp.1 hb hbuilding).length_eq
          have hleft : 0 < b.left.length := List.length_pos_of_mem (List.mem_map_of_mem hm)
          rw [walletEntries, repeated_eq, List.length_map, List.length_range, hzero,
            List.length_append] at hlen
          omega
        · exact hfunded
      obtain ⟨c, hcoin⟩ : ∃ c, c ∈ p.coinIds node.wallet := by
        apply List.exists_mem_of_length_pos
        rw [p.coinIds_length hwallet]
        exact hfunded.1
      have hnone := not_covers_of_findCoin (hi.coins _) hf hcoin
      exact hnone ((covers_of_wrapped hp.1 hb hcb hw hcoin).mpr hfunded.2)

theorem reaches_undefined (order : Shuffled p) : ∃ s, Reached p order s ∧ s.control = .undefined := by
  have hS := p.sendersPerTransfer.toNat_lt
  have hR := p.receiversPerTransfer.toNat_lt
  have hwrap := hp.1
  obtain ⟨s, hr, hn⟩ := halts_of_measure
    (wellFounded_lt.prod_lex wellFounded_lt) (measure p)
    (I := Reached p order) (fun a b ha hb => ha.tail hb)
    (fun a b ha hb => measure_fall (by omega) (by omega) (Inv.reached ha) (hp.not_exhausted ha) hb)
    (start p order) .refl
  refine ⟨s, hr, ?_⟩
  unfold next at hn
  split at hn
  · split at hn <;> cases hn
  · split at hn <;> cases hn
  · split at hn <;> cases hn
  · split at hn <;> cases hn
  · split at hn <;> cases hn
  · next hc => exact absurd hc (hp.not_returned hr)
  · next hc => exact absurd hc (hp.enough hr)
  · next hc => exact hc

end Parameters.RunsOut

/-- **The iterator stays in the list, whatever the shuffle, unless the sum wraps and
the list runs out**: every dereference, increment and erasure of a run meets a live
node exactly when the parameters do not make the first transfer use up the list. -/
theorem cursor_valid_iff (p : Parameters) (order : Shuffled p) :
    (∀ s, Reached p order s → s.control ≠ .undefined) ↔ ¬ p.RunsOut := by
  constructor
  · intro hvalid hp
    obtain ⟨s, hr, hc⟩ := hp.reaches_undefined order
    exact hvalid s hr hc
  · intro hp s hr hc
    rcases Nat.lt_or_ge (p.sendersPerTransfer.toNat + p.receiversPerTransfer.toNat) (2 ^ 64) with
      hsum | hwrap
    · exact defined_reached hsum hr hc
    · rcases Relation.ReflTransGen.cases_tail hr with rfl | ⟨b, hb, hn⟩
      · cases hc
      · exact hp (runsOut_of_starved hwrap hb (starved_of_undefined (Inv.reached hb) hn hc))

/-! One wallet, in one transfer, of `2 ^ 63` senders and as many receivers. -/

def manyParties : Parameters :=
  { numWallets := 1, sendersPerTransfer := 9223372036854775808
    receiversPerTransfer := 9223372036854775808 }

def manyOrder : Shuffled manyParties := ⟨[0], by decide⟩

theorem manyParties_undefined : ¬ ∀ s, Reached manyParties manyOrder s → s.control ≠ .undefined := by
  intro h
  exact h (run (next manyParties false) 4 (start manyParties manyOrder)) (reaches_run _ 4 _) (by decide)

end CascadePlayground.Cbdc
