import CascadePlayground.Cbdc.Usage
import CascadePlayground.FirstFit
import Mathlib.Data.List.Find

/-! Which coin a sender spends, and when the funds do not suffice.

Every sending of a wallet spends the same amount of one of its own coins, the
first that covers it, and nothing is ever credited to a wallet of its own coins.
So its coins are equal stocks that meet equal demands first fit: after `a`
sendings coin `j` has paid for `used (payments p) a j` of them (`Spent`), and the
next one is paid by coin `a / payments p` (`selected`), if the wallet has it. -/
namespace CascadePlayground.Cbdc
open StateTransition (Reaches)
open FirstFit

/-- How often the wallet sends in some transfers. -/
def sendings (w : WalletId) (ts : List BenchmarkTransfer) : Nat :=
  (ts.flatMap fun t => t.senders.map Prod.fst).count w

namespace Parameters
variable (p : Parameters)

/-- What a sender is debited. -/
def amount : Nat := p.transferValue.toNat * p.receiversPerTransfer.toNat % 2 ^ 32

/-- How many times a coin covers the amount. -/
def payments : Nat := p.coinInitialValue.toNat / p.amount

/-- The coin that the `k`-th sending of the wallet spends. -/
def selected (w : WalletId) (k : Nat) : Option CoinId :=
  if 0 < p.amount then
    if k ≤ p.coinsPerWallet.toNat * p.payments then
      some (w * p.coinsPerWallet.toNat + (k - 1) / p.payments)
    else none
  else if 1 ≤ p.coinsPerWallet.toNat then some (w * p.coinsPerWallet.toNat)
  else none

theorem filter_range_div (c w n : Nat) : (List.range (n * c)).filter (· / c = w) =
    if w < n then (List.range c).map (w * c + ·) else [] := by
  induction n with
  | zero => simp
  | succ n ih =>
    have hblock : ((List.range c).map (n * c + ·)).filter (· / c = w) =
        if n = w then (List.range c).map (n * c + ·) else [] := by
      have hdiv : ∀ j ∈ List.range c, (n * c + j) / c = n := by
        intro j hj
        have hj := List.mem_range.mp hj
        rw [Nat.add_comm, Nat.add_mul_div_right _ _ (by omega), Nat.div_eq_of_lt hj, Nat.zero_add]
      split
      · next h =>
        apply List.filter_eq_self.mpr
        intro i hi
        obtain ⟨j, hj, rfl⟩ := List.mem_map.mp hi
        exact decide_eq_true ((hdiv j hj).trans h)
      · next h =>
        apply List.filter_eq_nil_iff.mpr
        intro i hi
        obtain ⟨j, hj, rfl⟩ := List.mem_map.mp hi
        simpa [hdiv j hj] using h
    rw [Nat.succ_mul, List.range_add, List.filter_append, ih, hblock]
    rcases Nat.lt_trichotomy w n with h | rfl | h
    · rw [if_pos h, if_neg (Nat.ne_of_gt h), if_pos (Nat.lt_succ_of_lt h), List.append_nil]
    · simp
    · rw [if_neg (Nat.lt_asymm h), if_neg (Nat.ne_of_lt h), if_neg (by omega), List.append_nil]

/-- Below `2 ^ 64` coins, the coins of a wallet are numbered one after the other. -/
theorem coinIds_eq (h : p.coinCount < 2 ^ 64) {w : WalletId} (hw : w < p.numWallets.toNat) :
    p.coinIds w = (List.range p.coinsPerWallet.toNat).map (w * p.coinsPerWallet.toNat + ·) := by
  have hfilter := filter_range_div p.coinsPerWallet.toNat w p.numWallets.toNat
  rw [if_pos hw] at hfilter
  have hid : ∀ c ∈ (List.range p.coinsPerWallet.toNat).map (w * p.coinsPerWallet.toNat + ·),
      c % 2 ^ 64 = c := by
    intro c hc
    rw [← hfilter] at hc
    exact Nat.mod_eq_of_lt (Nat.lt_trans (List.mem_range.mp (List.mem_filter.mp hc).1) h)
  rw [coinIds, idsUpTo, coinCount, hfilter, List.map_congr_left hid, List.map_id']

end Parameters

/-! ### Balances, value by value -/

namespace Balances

theorem val_touch (e : Balances) (item k : WalletId × CoinId) : (e.touch item).val k = e.val k := by
  rw [val_eq, val_eq, touch, Std.ExtTreeMap.getElem?_insertIfNew]
  split
  · next h =>
    obtain rfl : item = k := Std.LawfulEqCmp.eq_of_compare h.1
    rw [Std.ExtTreeMap.getElem?_eq_none h.2]
    rfl
  · rfl

theorem val_subAssign (e : Balances) (item k : WalletId × CoinId) (v : CoinValue) :
    (e.subAssign item v).val k = if item = k then e.val item - v else e.val k := by
  rw [val_eq, getElem?_subAssign]
  split
  · rfl
  · exact (e.val_eq k).symm

theorem val_addAssign (e : Balances) (item k : WalletId × CoinId) (v : CoinValue) :
    (e.addAssign item v).val k = if item = k then e.val item + v else e.val k := by
  rw [val_eq, getElem?_addAssign]
  split
  · rfl
  · exact (e.val_eq k).symm

end Balances

theorem findCoin_fst (amount : CoinValue) (id : WalletId) (coins : CoinList) (e : Balances) :
    (findCoin amount id coins e).1 =
      (coins.map Prod.fst).find? fun c => decide (amount ≤ e.val (id, c)) := by
  induction coins generalizing e with
  | nil => rfl
  | cons coin rest ih =>
    simp only [findCoin, List.map_cons, List.find?_cons, Balances.val_touch]
    split
    · next h => rw [decide_eq_true h]
    · next h =>
      rw [decide_eq_false h, ih]
      simp only [Balances.val_touch]

/-- Where no coin is found, none of the wallet's covers the amount. -/
theorem not_covers_of_findCoin {p : Parameters} {amount : CoinValue} {id : WalletId} {coins : CoinList}
    {e e' : Balances} {c : CoinId} (hcoins : coins = p.coins id)
    (h : findCoin amount id coins e = (none, e')) (hc : c ∈ p.coinIds id) : ¬ amount ≤ e.val (id, c) := by
  have hfirst := findCoin_fst amount id coins e
  rw [h, hcoins, p.coins_eq, List.map_map] at hfirst
  have hnone := List.find?_eq_none.mp hfirst.symm c (by simpa using hc)
  rwa [decide_eq_true_eq] at hnone

theorem findCoin_val (amount : CoinValue) (id : WalletId) (coins : CoinList) (e : Balances)
    (k : WalletId × CoinId) : (findCoin amount id coins e).2.val k = e.val k := by
  induction coins generalizing e with
  | nil => rfl
  | cons coin rest ih =>
    simp only [findCoin]
    split
    · exact e.val_touch _ _
    · rw [ih, Balances.val_touch]

theorem creditPairs_val {id : WalletId} {pairs : CoinList} {k : WalletId × CoinId} (e : Balances)
    (h : ∀ pair ∈ pairs, (id, pair.1) ≠ k) : (creditPairs id pairs e).val k = e.val k := by
  induction pairs generalizing e with
  | nil => rfl
  | cons pair rest ih =>
    show (creditPairs id rest (e.addAssign (id, pair.1) pair.2)).val k = e.val k
    rw [ih _ fun q hq => h q (List.mem_cons_of_mem _ hq), Balances.val_addAssign,
      if_neg (h pair (List.mem_cons_self ..))]

/-! ### What the coins of every wallet have paid for -/

namespace Parameters
variable (p : Parameters)

/-- The account of a wallet's own coin, the coins numbered in minting order. -/
def own (w : WalletId) (j : Nat) : Account := (w, w * p.coinsPerWallet.toNat + j)

theorem amount_eq : p.transferValuePerWallet.toNat = p.amount := transferValuePerWallet_toNat p

theorem own_inj {v w : WalletId} {i j : Nat} (h : p.own v i = p.own w j) : v = w ∧ i = j := by
  obtain ⟨rfl, hc⟩ := Prod.mk.inj h
  exact ⟨rfl, Nat.add_left_cancel hc⟩

theorem mem_coinIds_own (h : p.coinCount < 2 ^ 64) {w : WalletId} (hw : w < p.numWallets.toNat)
    {j : Nat} (hj : j < p.coinsPerWallet.toNat) : (p.own w j).2 ∈ p.coinIds w := by
  rw [p.coinIds_eq h hw]
  exact List.mem_map.mpr ⟨j, List.mem_range.mpr hj, rfl⟩

theorem selected_pos {w : WalletId} {a : Nat} {c : CoinId} (hpos : 0 < p.amount)
    (h : p.selected w (a + 1) = some c) :
    a < p.coinsPerWallet.toNat * p.payments ∧ (w, c) = p.own w (a / p.payments) := by
  unfold selected at h
  rw [if_pos hpos] at h
  split at h
  · next hle => exact ⟨hle, congrArg (w, ·) (Option.some.inj h).symm⟩
  · cases h

end Parameters

/-- What every coin has left with its own wallet. -/
structure Spent (p : Parameters) (s : State) : Prop where
  left : ∀ w < p.numWallets.toNat, ∀ j < p.coinsPerWallet.toNat,
    (s.expectedFinalValues.val (p.own w j)).toNat +
      used p.payments (sendings w s.begun) j * p.amount = p.coinInitialValue.toNat
  enough : 0 < p.amount → ∀ w, sendings w s.begun ≤ p.coinsPerWallet.toNat * p.payments

variable {p : Parameters} {s s' : State}

theorem spent_start (p : Parameters) (order : Shuffled p) (hcoins : p.coinCount < 2 ^ 64) :
    Spent p (start p order) where
  left := by
    intro w hw j hj
    have hcoin : w * p.coinsPerWallet.toNat + j ∈ p.coinIds w := p.mem_coinIds_own hcoins hw hj
    show (p.mint.expectedFinalValues.val _).toNat + used _ 0 j * _ = _
    rw [Balances.val_eq, Parameters.own, p.mint_expected, if_pos hcoin, used_zero, Nat.zero_mul]
    rfl
  enough := fun _ _ => Nat.zero_le _

/-- A coin covers the amount as long as it has not been spent as often as it can be. -/
theorem Spent.covers (h : Spent p s) (hpos : 0 < p.amount) {w : WalletId}
    (hw : w < p.numWallets.toNat) {j : Nat} (hj : j < p.coinsPerWallet.toNat) :
    p.transferValuePerWallet ≤ s.expectedFinalValues.val (p.own w j) ↔
      used p.payments (sendings w s.begun) j < p.payments := by
  have hleft := h.left w hw j hj
  have hsucc := Nat.add_one_mul (used p.payments (sendings w s.begun) j) p.amount
  have hdiv : used p.payments (sendings w s.begun) j < p.payments ↔
      (used p.payments (sendings w s.begun) j + 1) * p.amount ≤ p.coinInitialValue.toNat :=
    Nat.le_div_iff_mul_le hpos
  rw [UInt32.le_iff_toNat_le, p.amount_eq, hdiv]
  omega

/-- The coin that is found is the one selected. -/
theorem Spent.findCoin (h : Spent p s) (hi : Inv p s) (hcoins : p.coinCount < 2 ^ 64) {w : WalletId}
    (hw : w < p.numWallets.toNat) :
    (findCoin p.transferValuePerWallet w (s.wallets.getD w []) s.expectedFinalValues).1 =
      p.selected w (sendings w s.begun + 1) := by
  have hids : (s.wallets.getD w []).map Prod.fst =
      (List.range p.coinsPerWallet.toNat).map (w * p.coinsPerWallet.toNat + ·) := by
    rw [hi.coins, p.coins_eq, List.map_map, ← p.coinIds_eq hcoins hw]
    exact List.map_id _
  rw [findCoin_fst, hids, List.find?_map]
  unfold Parameters.selected
  by_cases hpos : 0 < p.amount
  · have hfirst := find?_used p.payments (sendings w s.begun) p.coinsPerWallet.toNat
    have hcongr : (List.range p.coinsPerWallet.toNat).find?
        ((fun c => decide (p.transferValuePerWallet ≤ s.expectedFinalValues.val (w, c))) ∘
          (w * p.coinsPerWallet.toNat + ·)) =
        (List.range p.coinsPerWallet.toNat).find?
          fun j => decide (used p.payments (sendings w s.begun) j < p.payments) :=
      List.find?_congr fun j hj => decide_eq_decide.mpr (h.covers hpos hw (List.mem_range.mp hj))
    rw [hcongr, hfirst, if_pos hpos]
    by_cases hlt : sendings w s.begun < p.coinsPerWallet.toNat * p.payments
    · rw [if_pos hlt, if_pos (Nat.succ_le_of_lt hlt)]
      rfl
    · rw [if_neg hlt, if_neg (mt Nat.lt_of_succ_le hlt)]
      rfl
  · -- every coin covers an amount of zero
    have hzero : p.transferValuePerWallet = 0 :=
      UInt32.toNat_inj.mp (by rw [p.amount_eq]; exact Nat.eq_zero_of_not_pos hpos)
    have hall : ((fun c => decide (p.transferValuePerWallet ≤ s.expectedFinalValues.val (w, c))) ∘
        (w * p.coinsPerWallet.toNat + ·)) = fun _ => true := by
      funext j
      have hle : 0 ≤ s.expectedFinalValues.val (w, w * p.coinsPerWallet.toNat + j) := UInt32.zero_le
      rw [hzero]
      exact decide_eq_true hle
    rw [hall, if_neg hpos]
    cases p.coinsPerWallet.toNat with
    | zero => rfl
    | succ n => simp [List.range_succ_eq_map]

theorem sendings_concat (w : WalletId) (ts : List BenchmarkTransfer) (t : BenchmarkTransfer) :
    sendings w (ts ++ [t]) = sendings w ts + (t.senders.map Prod.fst).count w := by
  simp [sendings]

/-- A sending is one more demand that the wallet's coins have met. -/
theorem Spent.send (h : Spent p s) {w : WalletId} (hw : w < p.numWallets.toNat) {c : CoinId}
    (hc : p.selected w (sendings w s.begun + 1) = some c) {e : Balances}
    (he : ∀ k, e.val k = s.expectedFinalValues.val k)
    (hexpected : s'.expectedFinalValues = e.subAssign (w, c) p.transferValuePerWallet)
    (hself : sendings w s'.begun = sendings w s.begun + 1)
    (hother : ∀ v, v ≠ w → sendings v s'.begun = sendings v s.begun) : Spent p s' := by
  refine ⟨fun v hv j hj => ?_, fun hpos v => ?_⟩
  · have hleft := h.left v hv j hj
    rw [hexpected, Balances.val_subAssign, he, he]
    by_cases hpos : 0 < p.amount
    · obtain ⟨hlt, hown⟩ := p.selected_pos hpos hc
      have hq : 0 < p.payments := Nat.pos_of_mul_pos_left (Nat.zero_lt_of_lt hlt)
      by_cases hk : (w, c) = p.own v j
      · obtain ⟨rfl, rfl⟩ := p.own_inj (hown.symm.trans hk)
        have hcover := (h.covers hpos hv hj).mpr ((used_lt_iff_div hq).mpr (Nat.le_refl _))
        have hle := UInt32.le_iff_toNat_le.mp hcover
        rw [p.amount_eq] at hle
        rw [if_pos hk, hk, UInt32.toNat_sub_of_le _ _ hcover, p.amount_eq, hself, used_succ_self hq,
          Nat.succ_mul]
        omega
      · rw [if_neg hk]
        by_cases hvw : v = w
        · subst hvw
          have hne : j ≠ sendings v s.begun / p.payments := fun hj' => hk (by rw [hown, hj'])
          rw [hself, used_succ_of_ne hne]
          exact hleft
        · rw [hother v hvw]
          exact hleft
    · have hzero : p.amount = 0 := Nat.eq_zero_of_not_pos hpos
      have hdebit : p.transferValuePerWallet = 0 :=
        UInt32.toNat_inj.mp (by rw [p.amount_eq]; exact hzero)
      rw [hzero, Nat.mul_zero, Nat.add_zero] at hleft ⊢
      rw [hdebit, UInt32.sub_zero]
      split
      · next hk => rw [hk]; exact hleft
      · exact hleft
  · by_cases hvw : v = w
    · rw [hvw, hself]
      exact (p.selected_pos hpos hc).1
    · rw [hother v hvw]
      exact h.enough hpos v

theorem Spent.congr (h : Spent p s) (hb : ∀ w, sendings w s'.begun = sendings w s.begun)
    (he : ∀ w < p.numWallets.toNat, ∀ j < p.coinsPerWallet.toNat,
      s'.expectedFinalValues.val (p.own w j) = s.expectedFinalValues.val (p.own w j)) : Spent p s' := by
  refine ⟨fun w hw j hj => ?_, fun hpos w => ?_⟩
  · rw [he w hw j hj, hb]
    exact h.left w hw j hj
  · rw [hb]
    exact h.enough hpos w

/-- No receiver is credited a coin of its own. -/
theorem Inv.not_own (hi : Inv p s) (hcoins : p.coinCount < 2 ^ 64) {id : WalletId}
    (hc : s.control = .receiverSearch id) (hid : id ∉ s.picked) {w : WalletId}
    (hw : w < p.numWallets.toNat) {j : Nat} (hj : j < p.coinsPerWallet.toNat) :
    ∀ pair ∈ recvPairs p s.transfer.senders, (id, pair.1) ≠ p.own w j := by
  intro pair hpair he
  obtain ⟨rfl, hcoin⟩ := Prod.mk.inj he
  have hpicked := (hi.building (by rw [hc]; rfl)).picked
  obtain ⟨x, hx, hpair⟩ := List.mem_flatMap.mp hpair
  obtain ⟨sent, hsent, rfl⟩ := List.mem_map.mp hpair
  obtain ⟨c, hcx, hx2⟩ := hi.wellFormed.senders x hx
  rw [hx2] at hsent
  obtain rfl := List.mem_singleton.mp hsent
  -- the coin belongs to the sender, and the receiver is another wallet
  have hown : c ∈ p.coinIds id := by
    have hmem := p.mem_coinIds_own hcoins hw hj
    rw [Parameters.own, ← hcoin] at hmem
    exact hmem
  have hsame : x.1 = id := p.mem_coinIds_unique hcoins hcx hown
  apply hid
  rw [hpicked, BenchmarkTransfer.wallets, ← hsame]
  exact List.mem_append.mpr (.inl (List.mem_map_of_mem hx))

theorem Picks.wallet_lt {node : Node} (hp : Picks s s' node) (hi : Inv p s) :
    node.wallet < p.numWallets.toNat :=
  hi.entries node (hp.list.mem_iff.mpr (List.mem_cons_self ..))

theorem Spent.step (h : Spent p s) (hi : Inv p s) (hcoins : p.coinCount < 2 ^ 64)
    (hs : s' ∈ next p false s) : Spent p s' := by
  cases effect_of_next hi hs with
  | quiet hq hb _ =>
    refine h.congr (fun w => ?_) fun w _ j _ => by rw [hq.expected]
    rcases hb with hb | hb
    · rw [hb]
    · rw [hb, sendings_concat]
      rfl
  | abandon _ ha _ => exact absurd ha hi.not_abandons
  | sender node c e hc hp hf hb he _ =>
    have hw := hp.wallet_lt hi
    have hsel := h.findCoin hi hcoins hw
    have hval := findCoin_val p.transferValuePerWallet node.wallet
      (s.wallets.getD node.wallet []) s.expectedFinalValues
    rw [hf] at hsel hval
    have hcount : ∀ v, sendings v s'.begun = sendings v s.begun + [node.wallet].count v := by
      intro v
      rw [hb, hp.begun, sendings_concat, sendings_concat, List.map_append, List.count_append,
        ← Nat.add_assoc]
      rfl
    refine h.send hw hsel.symm hval he ?_ fun v hv => ?_
    · rw [hcount, List.count_singleton_self]
    · rw [hcount, List.count_eq_zero_of_not_mem (by simpa using hv), Nat.add_zero]
  | receiver node hc hp hb he _ =>
    refine h.congr (fun w => ?_) fun w hw j hj => ?_
    · rw [hb, hp.begun, sendings_concat, sendings_concat]
    · rw [he, creditPairs_val _ (hi.not_own hcoins hc hp.fresh hw hj)]
  | short id e _ _ hf hb _ he _ =>
    have hval := findCoin_val p.transferValuePerWallet id (s.wallets.getD id []) s.expectedFinalValues
    rw [hf] at hval
    exact h.congr (fun w => by rw [hb]) fun w _ j _ => by rw [he, hval]

theorem Spent.reached (hcoins : p.coinCount < 2 ^ 64) {order : Shuffled p} (h : Reached p order s) :
    Spent p s := by
  have hboth : Inv p s ∧ Spent p s :=
    Transition.Preserved.run (I := fun s => Inv p s ∧ Spent p s)
      (fun _ _ hs hn => ⟨hs.1.step hn, hs.2.step hs.1 hcoins hn⟩) h
      ⟨inv_start p order, spent_start p order hcoins⟩
  exact hboth.2

/-! ### The closed form -/

/-- How the pick of a sender ends: with its coin debited, or with the exception. -/
def Sends (p : Parameters) (s s' : State) (w : WalletId) : Option CoinId → Prop
  | some c => s'.control = .senders ∧
      s'.transfer.senders = s.transfer.senders ++ [(w, [(c, p.transferValuePerWallet)])] ∧
      s'.expectedFinalValues = s.expectedFinalValues.subAssign (w, c) p.transferValuePerWallet
  | none => s'.control = .notEnoughFunds

theorem sendings_le (w : WalletId) (ts : List BenchmarkTransfer) : sendings w ts ≤ (takers ts).count w := by
  induction ts with
  | nil => exact Nat.le_refl _
  | cons t ts ih =>
    have hcount : (takers (t :: ts)).count w = t.wallets.count w + (takers ts).count w := by
      rw [takers, List.flatMap_cons, List.count_append]
      rfl
    have hsend : sendings w (t :: ts) = (t.senders.map Prod.fst).count w + sendings w ts := by
      rw [sendings, List.flatMap_cons, List.count_append]
      rfl
    rw [hcount, hsend, BenchmarkTransfer.wallets, List.count_append]
    omega

/-- A wallet that is still in the list has not sent as often as it is in the list at
the start. -/
theorem Drawn.sendings_lt (h : Drawn p s) {w : WalletId} (hw : w < p.numWallets.toNat)
    (hleft : w ∈ s.left) : sendings w s.begun < p.transfersPerWallet.toNat := by
  have hcount := h.count_eq w
  rw [List.count_append, Parameters.walletEntries, Parameters.count_repeated, if_pos hw] at hcount
  have hpos := List.count_pos_iff.mpr hleft
  have hle := sendings_le w s.begun
  omega

section Reached
variable {order : Shuffled p} (hcoins : p.coinCount < 2 ^ 64) (h : Reached p order s)
include hcoins h

theorem sends_of_next {w : WalletId} (hc : s.control = .senderSearch w) (hw : w ∉ s.picked)
    (hs : s' ∈ next p false s) : Sends p s s' w (p.selected w (sendings w s.begun + 1)) := by
  have hi := Inv.reached h
  have hspent := Spent.reached hcoins h
  have hsame := (Accounted.reached hcoins h).findCoin hi (by rw [hc]; exact Control.noConfusion) w
  obtain ⟨node, hd, hm, rfl⟩ := hi.target (.inl hc)
  have hsel := hspent.findCoin hi hcoins (hi.entries node hm)
  have hnext : s' = s.pickSender p node.wallet := by
    simp only [next, hc, hw, if_false, Option.mem_def, Option.some.injEq] at hs
    exact hs.symm
  rcases pickSender_spec hd p node.wallet with ⟨e, hf, he⟩ | ⟨c, e, list, hf, _, _, _, _, he⟩
  · rw [hf] at hsel
    rw [← hsel, hnext, he]
    rfl
  · rw [hf] at hsel hsame
    rw [← hsel, hnext, he]
    exact ⟨rfl, rfl, congrArg (Balances.subAssign · _ _) hsame⟩

theorem short_of_next (hs : s' ∈ next p false s) (hc' : s'.control = .notEnoughFunds) :
    ∃ w, s.control = .senderSearch w ∧ w ∉ s.picked ∧ p.selected w (sendings w s.begun + 1) = none := by
  have hi := Inv.reached h
  cases effect_of_next hi hs with
  | quiet hq _ _ => exact absurd hc' hq.going
  | abandon hq _ _ => exact absurd hc' hq.going
  | sender _ _ _ _ _ _ _ _ hc => rw [hc] at hc'; cases hc'
  | receiver _ _ _ _ _ hc => rw [hc] at hc'; cases hc'
  | short w e hc hw hf _ _ _ _ =>
    refine ⟨w, hc, hw, ?_⟩
    obtain ⟨node, _, hm, rfl⟩ := hi.target (.inl hc)
    rw [← (Spent.reached hcoins h).findCoin hi hcoins (hi.entries node hm), hf]

theorem enough_funds (hpos : 0 < p.amount)
    (hle : p.transfersPerWallet.toNat ≤ p.coinsPerWallet.toNat * p.payments) :
    s.control ≠ .notEnoughFunds := by
  intro hc
  rcases Relation.ReflTransGen.cases_tail h with rfl | ⟨b, hb, hn⟩
  · cases hc
  · obtain ⟨w, hcb, _, hsel⟩ := short_of_next hcoins hb hn hc
    have hi := Inv.reached hb
    obtain ⟨node, _, hm, rfl⟩ := hi.target (.inl hcb)
    have hlt := (Drawn.reached hb).sendings_lt (hi.entries node hm) (List.mem_map_of_mem hm)
    rw [Parameters.selected, if_pos hpos, if_pos (by omega)] at hsel
    cases hsel

end Reached

/-- **The coin a sender spends, in closed form.** The pick of a sender ends as
`selected` says, by how often the wallet has sent before; it is the only thing that
throws; and nothing does where the coins of a wallet cover all its transfers. -/
theorem coin_selection (p : Parameters)
    (hcoins : p.numWallets.toNat * p.coinsPerWallet.toNat < 2 ^ 64) (order : Shuffled p) (s : State)
    (h : Reached p order s) :
    (∀ w, s.control = .senderSearch w → w ∉ s.picked → ∀ s' ∈ next p false s,
      Sends p s s' w (p.selected w (sendings w s.begun + 1))) ∧
    (∀ s' ∈ next p false s, s'.control = .notEnoughFunds →
      ∃ w, s.control = .senderSearch w ∧ w ∉ s.picked ∧ p.selected w (sendings w s.begun + 1) = none) ∧
    (0 < p.amount → p.transfersPerWallet.toNat ≤ p.coinsPerWallet.toNat * p.payments →
      s.control ≠ .notEnoughFunds) :=
  ⟨fun _ hc hw _ hs => sends_of_next hcoins h hc hw hs, fun _ hs hc => short_of_next hcoins h hs hc,
    fun hpos hle => enough_funds hcoins h hpos hle⟩

/-- The first test of the search for a sender. -/
def sixPick : State := Transition.run (next sixWallets false) 2 (start sixWallets sixOrder)

theorem sixPick_selection :
    Sends sixWallets sixPick (Transition.run (next sixWallets false) 1 sixPick) 2 (some 4) := by
  have hsel : sixWallets.selected 2 (sendings 2 sixPick.begun + 1) = some 4 := by decide
  rw [← hsel]
  exact (coin_selection sixWallets (by decide) sixOrder sixPick (Transition.reaches_run _ 2 _)).1 2
    (by decide) (by decide) _ (Transition.run_one (by decide))

-- the second time that wallet 2 sends, its first coin has 5 left: its second coin is spent
example : sixWallets.selected 2 1 = some 4 ∧ sixWallets.selected 2 2 = some 5 ∧
    sixWallets.selected 2 3 = none := by decide

end CascadePlayground.Cbdc
