import CascadePlayground.Cbdc.AnyOrder
import CascadePlayground.Cbdc.Selection
import Mathlib.Algebra.BigOperators.Ring.Finset

/-! What a wallet has.

A wallet spends its own coins and gets parts of the coins of others. So its
expected final values, over all coins, are what was minted for it, less what it
sent, plus what it received, and it never sends more than was minted for it
(`wealth_correct`). Only the division by the number of receivers loses money. -/
namespace CascadePlayground.Cbdc
open Ledger

/-- What the wallet has over all coins. -/
def walletTotal (p : Parameters) (e : Balances) (w : WalletId) : Nat :=
  ∑ c ∈ Finset.range p.coinCount, (e.val (w, c)).toNat

/-- How many entries of the list are the wallet's. -/
def occurrences (w : WalletId) (l : List (WalletId × CoinList)) : Nat := l.countP fun x => x.1 = w

/-- How often the wallet receives in some transfers. -/
def received (w : WalletId) (ts : List BenchmarkTransfer) : Nat :=
  occurrences w (ts.flatMap BenchmarkTransfer.receivers)

theorem sendings_eq (w : WalletId) (ts : List BenchmarkTransfer) :
    sendings w ts = occurrences w (ts.flatMap BenchmarkTransfer.senders) := by
  rw [sendings, ← List.map_flatMap, List.count, List.countP_map]
  exact List.countP_congr fun x _ => by simp

theorem sum_occurrences (n : Nat) (l : List (WalletId × CoinList)) (h : ∀ x ∈ l, x.1 < n) :
    ∑ w ∈ Finset.range n, occurrences w l = l.length := by
  induction l with
  | nil => exact Finset.sum_eq_zero fun _ _ => rfl
  | cons x l ih =>
    have hx := h x (List.mem_cons_self ..)
    have hl := ih fun y hy => h y (List.mem_cons_of_mem _ hy)
    simp only [occurrences] at hl
    simp only [occurrences, List.countP_cons, Finset.sum_add_distrib, hl, List.length_cons,
      decide_eq_true_eq]
    rw [Finset.sum_ite_eq, if_pos (Finset.mem_range.mpr hx)]

/-! ### What transfers post to a wallet -/

/-- The accounts of a wallet with the coins of a set. -/
def purse (w : WalletId) (K : Finset CoinId) : Finset Account := {w} ×ˢ K

theorem sum_purse (w : WalletId) (K : Finset CoinId) (f : Account → Nat) :
    ∑ k ∈ purse w K, f k = ∑ c ∈ K, f (w, c) := by
  rw [purse, Finset.sum_product, Finset.sum_singleton]

/-- A wallet is posted the same for each of its entries. -/
theorem posted_purse (w : WalletId) (K : Finset CoinId) (v : Nat) (l : List (WalletId × CoinList))
    (h : ∀ x ∈ l, x.1 = w →
      (∀ coin ∈ x.2, coin.1 ∈ K) ∧ (x.2.map fun coin => coin.2.toNat).sum = v) :
    posted (purse w K) (entries l) = occurrences w l * v := by
  induction l with
  | nil => rw [occurrences, List.countP_nil, Nat.zero_mul]; rfl
  | cons x l ih =>
    have hl := ih fun y hy => h y (List.mem_cons_of_mem _ hy)
    have hcons : entries (x :: l) = x.2.map (fun coin => ((x.1, coin.1), coin.2.toNat)) ++ entries l := rfl
    have hocc : occurrences w (x :: l) = occurrences w l + if x.1 = w then 1 else 0 := by
      simp only [occurrences, List.countP_cons, decide_eq_true_eq]
    have hone : posted (purse w K) (x.2.map fun coin => ((x.1, coin.1), coin.2.toNat)) =
        (if x.1 = w then 1 else 0) * v := by
      rw [posted, List.map_map]
      by_cases hx : x.1 = w
      · obtain ⟨hmem, hsum⟩ := h x (List.mem_cons_self ..) hx
        rw [if_pos hx, Nat.one_mul, ← hsum]
        congr 1
        apply List.map_congr_left
        intro coin hc
        have hin : (x.1, coin.1) ∈ purse w K :=
          Finset.mem_product.mpr ⟨Finset.mem_singleton.mpr hx, hmem coin hc⟩
        exact if_pos hin
      · rw [if_neg hx, Nat.zero_mul]
        apply List.sum_eq_zero
        intro n hn
        obtain ⟨coin, _, rfl⟩ := List.mem_map.mp hn
        have hout : (x.1, coin.1) ∉ purse w K := fun hmem =>
          hx (Finset.mem_singleton.mp (Finset.mem_product.mp hmem).1)
        exact if_neg hout
    rw [hcons, posted_append, hone, hl, hocc]
    ring

/-- Nothing is posted where no entry is. -/
theorem posted_eq_zero {K : Finset Account} {l : List (Account × Nat)} (h : ∀ e ∈ l, e.1 ∉ K) :
    posted K l = 0 := by
  apply List.sum_eq_zero
  intro n hn
  obtain ⟨e, he, rfl⟩ := List.mem_map.mp hn
  exact if_neg (h e he)

theorem allDebits_postings (ts : List BenchmarkTransfer) :
    allDebits (postings ts) = entries (ts.flatMap BenchmarkTransfer.senders) := by
  simp [allDebits, postings, entries, BenchmarkTransfer.posting, List.flatMap_map, List.flatMap_assoc]

theorem allCredits_postings (ts : List BenchmarkTransfer) :
    allCredits (postings ts) = entries (ts.flatMap BenchmarkTransfer.receivers) := by
  simp [allCredits, postings, entries, BenchmarkTransfer.posting, List.flatMap_map, List.flatMap_assoc]

variable {p : Parameters} {s : State} {ts : List BenchmarkTransfer}

theorem coinIds_lt {w : WalletId} {c : CoinId} (h : c ∈ p.coinIds w) : c < p.coinCount := by
  obtain ⟨t, ht, -, rfl⟩ := p.mem_coinIds.mp h
  exact Nat.lt_of_le_of_lt (Nat.mod_le _ _) ht

/-- A sender is debited once for each time it sends, whatever coins are asked about
as long as its own are among them. -/
theorem posted_sent (h : ∀ t ∈ ts, Completed p t) {w : WalletId} {K : Finset CoinId}
    (hK : ∀ c ∈ p.coinIds w, c ∈ K) :
    posted (purse w K) (allDebits (postings ts)) = sendings w ts * p.transferValuePerWallet.toNat := by
  rw [allDebits_postings, sendings_eq]
  apply posted_purse
  intro x hx hw
  obtain ⟨t, ht, hxt⟩ := List.mem_flatMap.mp hx
  obtain ⟨c, hc, he⟩ := (h t ht).senders x hxt
  rw [hw] at hc
  rw [he]
  constructor
  · intro coin hcoin
    rw [List.mem_singleton.mp hcoin]
    exact hK c hc
  · simp

theorem WellFormed.spent_lt {t : BenchmarkTransfer} (h : WellFormed p t)
    {coin : CoinId × CoinValue} (hc : coin ∈ t.spent) : coin.1 < p.coinCount := by
  obtain ⟨x, hx, hcx⟩ := List.mem_flatMap.mp hc
  obtain ⟨c, hid, he⟩ := h.senders x hx
  rw [he] at hcx
  rw [List.mem_singleton.mp hcx]
  exact coinIds_lt hid

/-- A receiver is credited a part of every sender's coin. -/
theorem posted_received (h : ∀ t ∈ ts, Completed p t) (w : WalletId) :
    posted (purse w (Finset.range p.coinCount)) (allCredits (postings ts)) =
      received w ts * (p.sendersPerTransfer.toNat *
        (p.transferValuePerWallet.toNat / p.receiversPerTransfer.toNat)) := by
  rw [allCredits_postings]
  apply posted_purse
  intro y hy _
  obtain ⟨t, ht, hyt⟩ := List.mem_flatMap.mp hy
  have hcomp := h t ht
  rw [hcomp.received hyt]
  constructor
  · intro coin hcoin
    obtain ⟨c, hspent, rfl⟩ := List.mem_map.mp hcoin
    have hlt : c.1 < p.coinCount := hcomp.spent_lt hspent
    exact Finset.mem_range.mpr hlt
  · have hall : t.spent.map (fun coin => (p.valueIn coin.2).toNat) =
        t.spent.map fun _ => p.transferValuePerWallet.toNat / p.receiversPerTransfer.toNat := by
      apply List.map_congr_left
      intro coin hc
      rw [hcomp.spent_value hc, valueIn_toNat]
    rw [List.map_map]
    show (t.spent.map fun coin => (p.valueIn coin.2).toNat).sum = _
    rw [hall, List.map_const', List.sum_replicate_nat, hcomp.spent_length, hcomp.senderCount]

/-- No wallet is credited a coin of its own. -/
theorem posted_own (h : ∀ t ∈ ts, Completed p t) (hcoins : p.coinCount < 2 ^ 64) (w : WalletId) :
    posted (purse w (p.coinIds w).toFinset) (allCredits (postings ts)) = 0 := by
  apply posted_eq_zero
  intro e he hmem
  obtain ⟨w', hne, hw'⟩ := mem_credits h (List.mem_map_of_mem he)
  obtain ⟨hw, hc⟩ := Finset.mem_product.mp hmem
  rw [List.mem_toFinset, ← Finset.mem_singleton.mp hw] at hc
  exact hne (p.mem_coinIds_unique hcoins hw' hc)

/-! ### What was minted for a wallet -/

theorem coinIds_nodup (hcoins : p.coinCount < 2 ^ 64) (w : WalletId) : (p.coinIds w).Nodup := by
  apply List.Nodup.map_on
  · intro t ht t' ht' hmod
    have hlt := List.mem_range.mp (List.mem_filter.mp ht).1
    have hlt' := List.mem_range.mp (List.mem_filter.mp ht').1
    rw [Nat.mod_eq_of_lt (by omega), Nat.mod_eq_of_lt (by omega)] at hmod
    exact hmod
  · exact List.nodup_range.filter _

/-- Its coins are all there is, in any set that has them. -/
theorem sum_minted_purse (hcoins : p.coinCount < 2 ^ 64) {w : WalletId} (hw : w < p.numWallets.toNat)
    {K : Finset CoinId} (hK : ∀ c ∈ p.coinIds w, c ∈ K) :
    ∑ c ∈ K, p.mintedBook.value (w, c) = p.coinsPerWallet.toNat * p.coinInitialValue.toNat := by
  have hsub : (p.coinIds w).toFinset ⊆ K := fun c hc => hK c (List.mem_toFinset.mp hc)
  have hcard : (p.coinIds w).toFinset.card = p.coinsPerWallet.toNat := by
    rw [List.toFinset_card_of_nodup (coinIds_nodup hcoins w), p.coinIds_length hw]
  have hown : ∀ c ∈ (p.coinIds w).toFinset, p.mintedBook.value (w, c) = p.coinInitialValue.toNat := by
    intro c hc
    rw [Book.value, mintedBook_apply, if_pos (List.mem_toFinset.mp hc)]
    rfl
  have hother : ∀ c ∈ K, c ∉ (p.coinIds w).toFinset → p.mintedBook.value (w, c) = 0 := by
    intro c _ hc
    rw [Book.value, mintedBook_apply, if_neg fun h => hc (List.mem_toFinset.mpr h)]
    rfl
  rw [← Finset.sum_subset hsub hother, Finset.sum_const_nat hown, hcard]

/-! ### The books of the wallets -/

/-- The ledger's book after the recorded transfers. -/
theorem executed_of_between (hcoins : p.coinCount < 2 ^ 64) {order : Shuffled p} (h : Reached p order s)
    (hc : s.control = .transfers ∨ s.control = .returned) :
    executeAll p.mintedBook (postings s.transfers) = some s.expectedFinalValues.book := by
  have hbegun : s.begun = s.transfers := by
    rcases hc with hc | hc <;> simp [State.begun, State.current, hc]
  have hbook := Accounted.reached hcoins h (by rcases hc with hc | hc <;> rw [hc] <;> decide)
  rw [hbegun] at hbook
  exact hbook

/-- What a wallet has of some coins, its own among them. -/
theorem purse_balance (hcoins : p.coinCount < 2 ^ 64) (hts : ∀ t ∈ ts, Completed p t) {e : Balances}
    (hbook : executeAll p.mintedBook (postings ts) = some e.book) {w : WalletId}
    (hw : w < p.numWallets.toNat) {K : Finset CoinId} (hK : ∀ c ∈ p.coinIds w, c ∈ K) :
    ∑ c ∈ K, (e.val (w, c)).toNat + sendings w ts * p.transferValuePerWallet.toNat =
      p.coinsPerWallet.toNat * p.coinInitialValue.toNat +
        posted (purse w K) (allCredits (postings ts)) := by
  have hsum := executeAll_sum (purse w K) (postings ts) hbook
  rw [sum_purse, sum_purse, sum_minted_purse hcoins hw hK, posted_sent hts hK] at hsum
  simp only [Balances.book_value] at hsum
  exact hsum

/-- Every entry is about a coin that was minted and a wallet there is. -/
theorem keys_bounded (hcoins : p.coinCount < 2 ^ 64) (hts : ∀ t ∈ ts, Completed p t) {e : Balances}
    (hbook : executeAll p.mintedBook (postings ts) = some e.book) {k : Account} (hk : k ∈ e) :
    k.1 < p.numWallets.toNat ∧ k.2 < p.coinCount := by
  obtain ⟨_, hsettled⟩ := (executeAll_eq_some _ (separate_postings hcoins hts) _ _).mp hbook
  have hsome : (e.book k).isSome := by
    rw [Std.ExtTreeMap.mem_iff_isSome_getElem?] at hk
    rw [Balances.book, Option.isSome_map]
    exact hk
  rw [hsettled, settled, creditAll_apply] at hsome
  split at hsome
  · next hcredit =>
    obtain ⟨w, _, hw⟩ := mem_credits hts hcredit
    refine ⟨?_, coinIds_lt hw⟩
    rw [allCredits_postings] at hcredit
    obtain ⟨x, hx, rfl⟩ := List.mem_map.mp hcredit
    obtain ⟨y, hy, hxy⟩ := List.mem_flatMap.mp hx
    obtain ⟨coin, _, rfl⟩ := List.mem_map.mp hxy
    obtain ⟨t, ht, hyt⟩ := List.mem_flatMap.mp hy
    exact (hts t ht).receiver_lt hyt
  · rw [withdrawn, Option.isSome_map, mintedBook_apply] at hsome
    split at hsome
    · next hid => exact ⟨p.coinIds_wallet hid, coinIds_lt hid⟩
    · cases hsome

theorem sum_sent (hts : ∀ t ∈ ts, Completed p t) :
    ∑ w ∈ Finset.range p.numWallets.toNat, sendings w ts = ts.length * p.sendersPerTransfer.toNat := by
  have hall : ts.map (fun t => t.senders.length) = ts.map fun _ => p.sendersPerTransfer.toNat :=
    List.map_congr_left fun t ht => (hts t ht).senderCount
  have hlt : ∀ x ∈ ts.flatMap BenchmarkTransfer.senders, x.1 < p.numWallets.toNat := by
    intro x hx
    obtain ⟨t, ht, hxt⟩ := List.mem_flatMap.mp hx
    exact (hts t ht).sender_lt hxt
  simp only [sendings_eq]
  rw [sum_occurrences _ _ hlt, List.length_flatMap, hall, List.map_const', List.sum_replicate_nat]

theorem sum_received (hts : ∀ t ∈ ts, Completed p t) :
    ∑ w ∈ Finset.range p.numWallets.toNat, received w ts = ts.length * p.receiversPerTransfer.toNat := by
  have hall : ts.map (fun t => t.receivers.length) = ts.map fun _ => p.receiversPerTransfer.toNat :=
    List.map_congr_left fun t ht => (hts t ht).receiverCount
  have hlt : ∀ x ∈ ts.flatMap BenchmarkTransfer.receivers, x.1 < p.numWallets.toNat := by
    intro x hx
    obtain ⟨t, ht, hxt⟩ := List.mem_flatMap.mp hx
    exact (hts t ht).receiver_lt hxt
  simp only [received]
  rw [sum_occurrences _ _ hlt, List.length_flatMap, hall, List.map_const', List.sum_replicate_nat]

/-- **What every wallet has**, after every completed transfer and at the return of
`generate`: what was minted for it, less what it sent, plus what it received. A wallet
never sends more than was minted for it; all wallets together have what was minted,
less what the division by the number of receivers leaves over. -/
theorem wealth_correct (p : Parameters)
    (hcoins : p.numWallets.toNat * p.coinsPerWallet.toNat < 2 ^ 64) (order : Shuffled p) (s : State)
    (h : Reached p order s) (hc : s.control = .transfers ∨ s.control = .returned) :
    (∀ w < p.numWallets.toNat,
      walletTotal p s.expectedFinalValues w + sendings w s.transfers * p.transferValuePerWallet.toNat =
          p.coinsPerWallet.toNat * p.coinInitialValue.toNat +
            received w s.transfers * (p.sendersPerTransfer.toNat *
              (p.transferValuePerWallet.toNat / p.receiversPerTransfer.toNat)) ∧
        sendings w s.transfers * p.transferValuePerWallet.toNat ≤
          p.coinsPerWallet.toNat * p.coinInitialValue.toNat) ∧
      (∀ k ∈ s.expectedFinalValues, k.1 < p.numWallets.toNat ∧
        k.2 < p.numWallets.toNat * p.coinsPerWallet.toNat) ∧
      ∑ w ∈ Finset.range p.numWallets.toNat, walletTotal p s.expectedFinalValues w +
          s.transfers.length * (p.sendersPerTransfer.toNat *
            (p.transferValuePerWallet.toNat % p.receiversPerTransfer.toNat)) =
        p.numWallets.toNat * (p.coinsPerWallet.toNat * p.coinInitialValue.toNat) := by
  have hts := (Inv.reached h).recorded
  have hbook := executed_of_between hcoins h hc
  have hwallet : ∀ w < p.numWallets.toNat,
      walletTotal p s.expectedFinalValues w + sendings w s.transfers * p.transferValuePerWallet.toNat =
        p.coinsPerWallet.toNat * p.coinInitialValue.toNat +
          received w s.transfers * (p.sendersPerTransfer.toNat *
            (p.transferValuePerWallet.toNat / p.receiversPerTransfer.toNat)) := by
    intro w hw
    rw [← posted_received hts w]
    exact purse_balance hcoins hts hbook hw fun c hid => Finset.mem_range.mpr (coinIds_lt hid)
  refine ⟨fun w hw => ⟨hwallet w hw, ?_⟩, fun k hk => keys_bounded hcoins hts hbook hk, ?_⟩
  · -- of its own coins it only ever spends
    have hown := purse_balance hcoins hts hbook hw (K := (p.coinIds w).toFinset)
      fun c hid => List.mem_toFinset.mpr hid
    rw [posted_own hts hcoins w] at hown
    omega
  · have hsum := Finset.sum_congr rfl fun w hw => hwallet w (Finset.mem_range.mp hw)
    simp only [Finset.sum_add_distrib, ← Finset.sum_mul, sum_sent hts, sum_received hts,
      Finset.sum_const_nat fun _ _ => rfl, Finset.card_range] at hsum
    have hdiv := Nat.div_add_mod p.transferValuePerWallet.toNat p.receiversPerTransfer.toNat
    generalize p.transferValuePerWallet.toNat / p.receiversPerTransfer.toNat = q at hsum hdiv
    generalize p.transferValuePerWallet.toNat % p.receiversPerTransfer.toNat = r at hdiv ⊢
    rw [← hdiv] at hsum
    have hsplit : s.transfers.length * p.sendersPerTransfer.toNat *
        (p.receiversPerTransfer.toNat * q + r) =
          s.transfers.length * p.receiversPerTransfer.toNat * (p.sendersPerTransfer.toNat * q) +
            s.transfers.length * (p.sendersPerTransfer.toNat * r) := by
      ring
    omega

theorem sixEnd_wealth :
    (∀ w < 3, walletTotal sixWallets sixEnd.expectedFinalValues w + sendings w sixEnd.transfers * 10 =
          2 * 15 + received w sixEnd.transfers * (2 * (10 / 1)) ∧
        sendings w sixEnd.transfers * 10 ≤ 2 * 15) ∧
      (∀ k ∈ sixEnd.expectedFinalValues, k.1 < 3 ∧ k.2 < 3 * 2) ∧
      ∑ w ∈ Finset.range 3, walletTotal sixWallets sixEnd.expectedFinalValues w +
          sixEnd.transfers.length * (2 * (10 % 1)) = 3 * (2 * 15) :=
  wealth_correct sixWallets (by decide) sixOrder sixEnd sixEnd_returns.1 (.inr sixEnd_returns.2)

end CascadePlayground.Cbdc
