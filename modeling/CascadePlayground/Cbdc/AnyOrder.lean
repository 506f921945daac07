import CascadePlayground.Cbdc.Accounted

/-! A generated workload can be executed in any order.

`executeTransfers` is a consumer of the workload: it takes each coin entry of
each sender out of the sender's balance, failing where that is not covered, and
puts each coin entry of each receiver into the receiver's, failing where that
would wrap. On a book, it does what the ledger does (`executeTransfers_book`).

A sender only ever spends a coin that was minted for it, and its receivers are
other wallets. So no account is both debited and credited (`separate_postings`),
and the order does not matter (`Ledger.executeAll_perm`). -/
namespace CascadePlayground.Cbdc
open Ledger

/-! ### Executing a workload -/

/-- The coin entries of some wallets, one by one. -/
def items (l : List (WalletId × CoinList)) : List (Account × CoinValue) :=
  l.flatMap fun x => x.2.map fun coin => ((x.1, coin.1), coin.2)

def withdraw (e : Balances) (x : Account × CoinValue) : Option Balances :=
  match e[x.1]? with
  | some b => if x.2 ≤ b then some (e.subAssign x.1 x.2) else none
  | none => none

def deposit (e : Balances) (x : Account × CoinValue) : Option Balances :=
  if (e.val x.1).toNat + x.2.toNat < 2 ^ 32 then some (e.addAssign x.1 x.2) else none

def executeTransfer (e : Balances) (t : BenchmarkTransfer) : Option Balances :=
  ((items t.senders).foldlM withdraw e).bind fun e => (items t.receivers).foldlM deposit e

def executeTransfers (e : Balances) (ts : List BenchmarkTransfer) : Option Balances :=
  ts.foldlM executeTransfer e

/-- The balances after the coins of `wallets` have been minted. -/
def mintWallets (ws : Wallets) : Balances :=
  (items ws.toList).foldl (fun e x => e.insert x.1 x.2) ∅

/-! ### On books -/

theorem book_injective {e e' : Balances} (h : e.book = e'.book) : e = e' := by
  apply Balances.ext
  intro k
  apply Option.map_injective fun a b hab => UInt32.toNat_inj.mp hab
  exact congrFun h k

theorem entries_eq (l : List (WalletId × CoinList)) :
    entries l = (items l).map fun x => (x.1, x.2.toNat) := by
  simp [entries, items, List.map_flatMap, Function.comp_def]

theorem withdraw_book {e : Balances} {x : Account × CoinValue} {b : Book Account}
    (h : debit e.book (x.1, x.2.toNat) = some b) : ∃ e', withdraw e x = some e' ∧ e'.book = b := by
  unfold debit at h
  split at h
  · next v hv =>
    split at h
    · next hle =>
      obtain ⟨a, ha, rfl⟩ := Option.map_eq_some_iff.mp hv
      have hle : x.2 ≤ a := UInt32.le_iff_toNat_le.mpr hle
      have hm : x.1 ∈ e := by
        rw [Std.ExtTreeMap.mem_iff_isSome_getElem?, ha]
        rfl
      have hval : e.val x.1 = a := by rw [Balances.val_eq, ha]; rfl
      refine ⟨e.subAssign x.1 x.2, by unfold withdraw; rw [ha]; exact if_pos hle, ?_⟩
      have hbook := book_subAssign hm (by rw [hval]; exact hle)
      unfold debit at hbook
      rw [hv] at hbook
      simp only [UInt32.le_iff_toNat_le.mp hle, if_true] at hbook
      exact (Option.some.inj hbook).symm.trans (Option.some.inj h)
    · cases h
  · cases h

theorem withdraws_book (l : List (Account × CoinValue)) {e : Balances} {b : Book Account}
    (h : debitAll e.book (l.map fun x => (x.1, x.2.toNat)) = some b) :
    ∃ e', l.foldlM withdraw e = some e' ∧ e'.book = b := by
  induction l generalizing e with
  | nil => exact ⟨e, rfl, Option.some.inj h⟩
  | cons x l ih =>
    simp only [debitAll, List.map_cons, List.foldlM_cons, Option.bind_eq_bind,
      Option.bind_eq_some_iff] at h
    obtain ⟨c, hc, hl⟩ := h
    obtain ⟨e', he', rfl⟩ := withdraw_book hc
    obtain ⟨e'', he'', hb⟩ := ih hl
    exact ⟨e'', by rw [List.foldlM_cons, he']; exact he'', hb⟩

/-- Deposits go through when what they lead to is below `2 ^ 32`. -/
theorem deposits_book (l : List (Account × CoinValue)) {e : Balances}
    (h : ∀ x ∈ l, (creditAll e.book (l.map fun x => (x.1, x.2.toNat))).value x.1 < 2 ^ 32) :
    ∃ e', l.foldlM deposit e = some e' ∧
      e'.book = creditAll e.book (l.map fun x => (x.1, x.2.toNat)) := by
  induction l generalizing e with
  | nil => exact ⟨e, rfl, rfl⟩
  | cons x l ih =>
    have hfit : (e.val x.1).toNat + x.2.toNat < 2 ^ 32 := by
      have := h x (List.mem_cons_self ..)
      rw [creditAll_value, Balances.book_value, List.map_cons, total_cons, if_pos rfl] at this
      omega
    have hcons : creditAll e.book ((x :: l).map fun x => (x.1, x.2.toNat)) =
        creditAll (e.addAssign x.1 x.2).book (l.map fun x => (x.1, x.2.toNat)) := by
      rw [← book_addAssign hfit]
      rfl
    rw [hcons] at h ⊢
    obtain ⟨e', he', hb⟩ := ih fun y hy => h y (List.mem_cons_of_mem _ hy)
    refine ⟨e', ?_, hb⟩
    rw [List.foldlM_cons, deposit, if_pos hfit]
    exact he'

theorem executeTransfer_book {e : Balances} {t : BenchmarkTransfer} {b : Book Account}
    (h : execute e.book t.posting = some b)
    (hfit : ∀ x ∈ items t.receivers, b.value x.1 < 2 ^ 32) :
    ∃ e', executeTransfer e t = some e' ∧ e'.book = b := by
  simp only [execute, BenchmarkTransfer.posting, entries_eq, Option.map_eq_some_iff] at h
  obtain ⟨c, hc, rfl⟩ := h
  obtain ⟨e', he', rfl⟩ := withdraws_book _ hc
  obtain ⟨e'', he'', hb⟩ := deposits_book _ hfit
  exact ⟨e'', by rw [executeTransfer, he']; exact he'', hb⟩

variable {p : Parameters}

/-- Completed transfers are executed as the ledger executes them: the bound on
what an account can hold keeps every deposit from wrapping. -/
theorem executeTransfers_book (hcoins : p.coinCount < 2 ^ 64) (ts done : List BenchmarkTransfer)
    (hts : ∀ t ∈ done ++ ts, Completed p t) {e : Balances} {b : Book Account}
    (hdone : executeAll p.mintedBook (postings done) = some e.book)
    (h : executeAll e.book (postings ts) = some b) :
    ∃ e', executeTransfers e ts = some e' ∧ e'.book = b := by
  induction ts generalizing done e with
  | nil => exact ⟨e, rfl, Option.some.inj h⟩
  | cons t ts ih =>
    simp only [executeAll, postings, List.map_cons, List.foldlM_cons, Option.bind_eq_bind,
      Option.bind_eq_some_iff] at h
    obtain ⟨c, hc, hrest⟩ := h
    have hdone' : executeAll p.mintedBook (postings (done ++ [t])) = some c := by
      rw [postings_concat, executeAll_concat, hdone]
      exact hc
    have hall : ∀ u ∈ done ++ [t], WellFormed p u ∧
        u.receivers.length ≤ p.receiversPerTransfer.toNat := by
      intro u hu
      have hcomp : Completed p u := by
        apply hts
        rcases List.mem_append.mp hu with hu | hu
        · exact List.mem_append.mpr (.inl hu)
        · exact List.mem_append.mpr (.inr (List.mem_singleton.mp hu ▸ List.mem_cons_self ..))
      exact ⟨hcomp.toWellFormed, Nat.le_of_eq hcomp.receiverCount⟩
    have hfit : ∀ x ∈ items t.receivers, c.value x.1 < 2 ^ 32 := by
      intro x hx
      obtain ⟨y, hy, hxy⟩ := List.mem_flatMap.mp hx
      obtain ⟨coin, _, rfl⟩ := List.mem_map.mp hxy
      have hwallet := (hall t (by simp)).1.receiver_lt hy
      exact Nat.lt_of_le_of_lt (book_bound hcoins hall hdone' hwallet coin.1) p.coinInitialValue.toNat_lt
    obtain ⟨e', he', rfl⟩ := executeTransfer_book hc hfit
    obtain ⟨e'', he'', hb⟩ := ih (done ++ [t]) (by simpa using hts) hdone' hrest
    exact ⟨e'', by rw [executeTransfers, List.foldlM_cons, he']; exact he'', hb⟩

/-! ### No account is both debited and credited -/

theorem mem_debits {ts : List BenchmarkTransfer} (hts : ∀ t ∈ ts, Completed p t) {k : Account}
    (hk : k ∈ (allDebits (postings ts)).map Prod.fst) : k.2 ∈ p.coinIds k.1 := by
  simp only [allDebits, postings, BenchmarkTransfer.posting, entries, List.mem_map, List.mem_flatMap,
    exists_exists_and_eq_and] at hk
  obtain ⟨x, ⟨t, ht, y, hy, coin, hcoin, rfl⟩, rfl⟩ := hk
  obtain ⟨c, hc, he⟩ := (hts t ht).senders y hy
  rw [he] at hcoin
  rw [List.mem_singleton.mp hcoin]
  exact hc

/-- What is credited is the coin of another wallet. -/
theorem mem_credits {ts : List BenchmarkTransfer} (hts : ∀ t ∈ ts, Completed p t) {k : Account}
    (hk : k ∈ (allCredits (postings ts)).map Prod.fst) : ∃ w, w ≠ k.1 ∧ k.2 ∈ p.coinIds w := by
  simp only [allCredits, postings, BenchmarkTransfer.posting, entries, List.mem_map, List.mem_flatMap,
    exists_exists_and_eq_and] at hk
  obtain ⟨x, ⟨t, ht, y, hy, coin, hcoin, rfl⟩, rfl⟩ := hk
  have hcomp := hts t ht
  rw [hcomp.received hy] at hcoin
  obtain ⟨sent, hsent, rfl⟩ := List.mem_map.mp hcoin
  obtain ⟨x, hx, hxs⟩ := List.mem_flatMap.mp hsent
  obtain ⟨c, hc, he⟩ := hcomp.senders x hx
  rw [he] at hxs
  rw [List.mem_singleton.mp hxs]
  refine ⟨x.1, fun hxy => ?_, hc⟩
  -- the wallets of a transfer are distinct: no receiver is a sender
  have hd := hcomp.distinct
  rw [BenchmarkTransfer.wallets, List.nodup_append] at hd
  exact hd.2.2 x.1 (List.mem_map_of_mem hx) y.1 (List.mem_map_of_mem hy) hxy

theorem separate_postings (hcoins : p.coinCount < 2 ^ 64) {ts : List BenchmarkTransfer}
    (hts : ∀ t ∈ ts, Completed p t) : Separate (postings ts) := by
  intro k hd hc
  obtain ⟨w, hne, hw⟩ := mem_credits hts hc
  exact hne (p.mem_coinIds_unique hcoins hw (mem_debits hts hd))

/-! ### The minted balances -/

theorem getElem?_foldl_insert (v : CoinValue) (l : List (Account × CoinValue))
    (hv : ∀ x ∈ l, x.2 = v) (e : Balances) (k : Account) :
    (l.foldl (fun e x => e.insert x.1 x.2) e)[k]? = if k ∈ l.map Prod.fst then some v else e[k]? := by
  induction l generalizing e with
  | nil => rfl
  | cons x l ih =>
    rw [List.foldl_cons, ih fun y hy => hv y (List.mem_cons_of_mem _ hy),
      Std.ExtTreeMap.getElem?_insert, hv x (List.mem_cons_self ..)]
    by_cases hl : k ∈ l.map Prod.fst
    · simp [hl]
    · by_cases hx : x.1 = k
      · simp [hx]
      · simp [hl, hx, Ne.symm hx]

/-- The minted balances, read off wallets that have the minted coins. -/
theorem mintWallets_of_coins {ws : Wallets} (h : ∀ w, ws.getD w [] = p.coins w) :
    mintWallets ws = p.mint.expectedFinalValues := by
  have hitem : ∀ item ∈ ws.toList, item.2 = p.coins item.1 := by
    intro item hi
    rw [← h, Std.ExtTreeMap.getD_eq_getD_getElem?, Std.ExtTreeMap.mem_toList_iff_getElem?_eq_some.mp hi]
    rfl
  have hval : ∀ x ∈ items ws.toList, x.2 = p.coinInitialValue := by
    intro x hx
    obtain ⟨item, hi, hx⟩ := List.mem_flatMap.mp hx
    obtain ⟨coin, hcoin, rfl⟩ := List.mem_map.mp hx
    rw [hitem item hi, Parameters.mem_coins] at hcoin
    exact hcoin.2
  apply Balances.ext
  intro k
  have hkeys : k ∈ (items ws.toList).map Prod.fst ↔ k.2 ∈ p.coinIds k.1 := by
    simp only [items, List.mem_map, List.mem_flatMap]
    constructor
    · intro h
      obtain ⟨x, ⟨item, hi, coin, hcoin, rfl⟩, rfl⟩ := h
      rw [hitem item hi, Parameters.mem_coins] at hcoin
      exact hcoin.1
    · intro hid
      have hmem : (k.2, p.coinInitialValue) ∈ p.coins k.1 := p.mem_coins.mpr ⟨hid, rfl⟩
      have hget : ws[k.1]? = some (p.coins k.1) := by
        have hgetD := h k.1
        rw [Std.ExtTreeMap.getD_eq_getD_getElem?] at hgetD
        cases hk : ws[k.1]? with
        | none =>
          rw [hk] at hgetD
          rw [← hgetD] at hmem
          cases hmem
        | some l =>
          rw [hk] at hgetD
          exact congrArg some hgetD
      exact ⟨_, ⟨(k.1, p.coins k.1), Std.ExtTreeMap.mem_toList_iff_getElem?_eq_some.mpr hget, _, hmem, rfl⟩,
        rfl⟩
  obtain ⟨w, id⟩ := k
  rw [mintWallets, getElem?_foldl_insert p.coinInitialValue _ hval, p.mint_expected, if_congr hkeys rfl rfl]
  rfl

/-! ### Any order -/

/-- **The transfers of a generated workload can be executed in any order**: from
the minted balances, no subtraction exceeds the balance it meets and no addition
wraps, and what is left is `expected_final_values`. -/
theorem transfers_any_order (p : Parameters)
    (hcoins : p.numWallets.toNat * p.coinsPerWallet.toNat < 2 ^ 64) (order : Shuffled p) (s : State)
    (h : Returns p order s) (ts : List BenchmarkTransfer) (hts : ts.Perm s.transfers) :
    executeTransfers (mintWallets s.wallets) ts = some s.expectedFinalValues := by
  have hinv := Inv.reached h.1
  have hc := h.2
  have hbook := Accounted.reached hcoins h.1 (by rw [hc]; decide)
  rw [State.begun, State.current, hc, List.append_nil] at hbook
  have hperm : (postings s.transfers).Perm (postings ts) := hts.symm.map _
  have hany := executeAll_perm hperm (separate_postings hcoins hinv.recorded) hbook
  have hmint : mintWallets s.wallets = p.mint.expectedFinalValues := mintWallets_of_coins hinv.coins
  obtain ⟨e', he', hb⟩ := executeTransfers_book hcoins ts []
    (fun t ht => hinv.recorded t (hts.mem_iff.mp ht)) rfl hany
  rw [hmint, he', book_injective hb]

theorem sixEnd_any_order :
    executeTransfers (mintWallets sixEnd.wallets) [sixSecond, sixFirst] =
      some sixEnd.expectedFinalValues :=
  transfers_any_order sixWallets (by decide) sixOrder sixEnd sixEnd_returns _ (by decide)

end CascadePlayground.Cbdc
