import CascadePlayground.Cbdc.Generate

/-! What the minting loops leave.

The `t`-th iteration of the minting loops mints one coin for wallet
`t / coins_per_wallet`, with id `t` modulo `2 ^ 64`. `MintedUpTo` says what has
been minted after `i` iterations; it holds after every one of them
(`mintedUpTo_foldl`), whatever the parameters: two coins of one wallet never
share an id, since a wallet has fewer than `2 ^ 64` coins. Coins of different
wallets have different ids as long as there are fewer than `2 ^ 64` coins
(`mem_coinIds_unique`). -/
namespace CascadePlayground.Cbdc
namespace Parameters

variable (p : Parameters)

/-- The iterations of a pair of nested loops, numbered. -/
theorem repeated_eq (n : UInt64) :
    p.repeated n = (List.range (p.numWallets.toNat * n.toNat)).map (· / n.toNat) := by
  unfold repeated
  induction p.numWallets.toNat with
  | zero => simp
  | succ w ih =>
    have hlast : (List.range n.toNat).map (fun j => (w * n.toNat + j) / n.toNat) =
        List.replicate n.toNat w := by
      apply List.eq_replicate_iff.mpr
      refine ⟨by simp, fun b hb => ?_⟩
      obtain ⟨j, hj, rfl⟩ := List.mem_map.mp hb
      have hj := List.mem_range.mp hj
      rw [Nat.add_comm, Nat.add_mul_div_right _ _ (by omega), Nat.div_eq_of_lt hj, Nat.zero_add]
    rw [List.range_succ, List.flatMap_append, ih, Nat.succ_mul, List.range_add, List.map_append,
      List.map_map]
    simp only [List.flatMap_singleton, Function.comp_def, hlast]

/-- The ids of the coins of `w` among the first `i` coins, in minting order. -/
def idsUpTo (i : Nat) (w : WalletId) : List CoinId :=
  ((List.range i).filter (· / p.coinsPerWallet.toNat = w)).map (· % 2 ^ 64)

/-- The coins of `w` among the first `i` coins, in minting order. -/
def coinsUpTo (i : Nat) (w : WalletId) : CoinList :=
  (p.idsUpTo i w).map fun c => (c, p.coinInitialValue)

/-- Every coin. -/
def coinCount : Nat := p.numWallets.toNat * p.coinsPerWallet.toNat

def coinIds (w : WalletId) : List CoinId := p.idsUpTo p.coinCount w

def coins (w : WalletId) : CoinList := p.coinsUpTo p.coinCount w

theorem mem_idsUpTo {i : Nat} {w : WalletId} {c : CoinId} :
    c ∈ p.idsUpTo i w ↔ ∃ t, t < i ∧ t / p.coinsPerWallet.toNat = w ∧ t % 2 ^ 64 = c := by
  simp [idsUpTo, and_assoc]

theorem idsUpTo_succ (i : Nat) (w : WalletId) :
    p.idsUpTo (i + 1) w =
      p.idsUpTo i w ++ if i / p.coinsPerWallet.toNat = w then [i % 2 ^ 64] else [] := by
  unfold idsUpTo
  rw [List.range_succ, List.filter_append, List.map_append]
  congr 1
  by_cases h : i / p.coinsPerWallet.toNat = w <;> simp [h]

/-- The next id is new to its wallet. -/
theorem fresh_id {i : Nat} (hc : 0 < p.coinsPerWallet.toNat) :
    i % 2 ^ 64 ∉ p.idsUpTo i (i / p.coinsPerWallet.toNat) := by
  intro h
  obtain ⟨t, ht, hw, hm⟩ := p.mem_idsUpTo.mp h
  have hsmall : p.coinsPerWallet.toNat < 2 ^ 64 := p.coinsPerWallet.toNat_lt
  have h1 := Nat.div_add_mod t p.coinsPerWallet.toNat
  have h2 := Nat.div_add_mod i p.coinsPerWallet.toNat
  have h3 := Nat.mod_lt i hc
  rw [hw] at h1
  have hmod : t % 2 ^ 64 = i % 2 ^ 64 := hm
  generalize p.coinsPerWallet.toNat * (i / p.coinsPerWallet.toNat) = q at h1 h2
  omega

/-- What the minting loops have left after `i` iterations. -/
structure MintedUpTo (i : Nat) (m : Minting) : Prop where
  cid : m.cid = i % 2 ^ 64
  wallets : ∀ w : WalletId, m.wallets[w]? = if p.idsUpTo i w = [] then none else some (p.coinsUpTo i w)
  expected : ∀ (w : WalletId) (c : CoinId), m.expectedFinalValues[(w, c)]? =
    if c ∈ p.idsUpTo i w then some p.coinInitialValue else none

theorem MintedUpTo.coins {p : Parameters} {i : Nat} {m : Minting} (h : p.MintedUpTo i m)
    (w : WalletId) : m.wallets.getD w [] = p.coinsUpTo i w := by
  rw [Std.ExtTreeMap.getD_eq_getD_getElem?, h.wallets]
  split
  · next h => simp [coinsUpTo, h]
  · rfl

/-- No coin has been credited to the wallet under the next id. -/
theorem MintedUpTo.absent {p : Parameters} {i : Nat} {m : Minting} (h : p.MintedUpTo i m)
    (hc : 0 < p.coinsPerWallet.toNat) :
    m.expectedFinalValues[(i / p.coinsPerWallet.toNat, m.cid)]? = none := by
  rw [h.expected, h.cid, if_neg (p.fresh_id hc)]

theorem MintedUpTo.step {p : Parameters} {i : Nat} {m : Minting} (h : p.MintedUpTo i m)
    (hc : 0 < p.coinsPerWallet.toNat) :
    p.MintedUpTo (i + 1) (p.mintCoin m (i / p.coinsPerWallet.toNat)) := by
  have hval : m.expectedFinalValues.val (i / p.coinsPerWallet.toNat, m.cid) = 0 := by
    rw [Balances.val_eq, h.absent hc]
    rfl
  refine ⟨?_, fun w => ?_, fun w c => ?_⟩
  · show (m.cid + 1) % 2 ^ 64 = (i + 1) % 2 ^ 64
    rw [h.cid]
    exact Nat.mod_add_mod i (2 ^ 64) 1
  · show (m.wallets.insert _ _)[w]? = _
    rw [Std.ExtTreeMap.getElem?_insert, h.coins, idsUpTo_succ]
    by_cases hw : i / p.coinsPerWallet.toNat = w
    · subst hw
      simp [coinsUpTo, idsUpTo_succ, h.cid]
    · simp [hw, h.wallets, coinsUpTo, idsUpTo_succ]
  · show (m.expectedFinalValues.addAssign _ _)[(w, c)]? = _
    rw [Balances.getElem?_addAssign, hval, h.expected, idsUpTo_succ, h.cid]
    generalize i % 2 ^ 64 = id
    by_cases hw : i / p.coinsPerWallet.toNat = w
    · by_cases hi : id = c
      · simp [hw, hi]
      · simp [hw, hi, Ne.symm hi]
    · simp [hw]

theorem mintedUpTo_zero : p.MintedUpTo 0 ⟨0, ∅, ∅⟩ :=
  ⟨rfl, fun w => by simp [idsUpTo], fun w c => by simp [idsUpTo]⟩

theorem mintedUpTo_foldl (i : Nat) (hi : 0 < i → 0 < p.coinsPerWallet.toNat) :
    p.MintedUpTo i (((List.range i).map (· / p.coinsPerWallet.toNat)).foldl p.mintCoin ⟨0, ∅, ∅⟩) := by
  induction i with
  | zero => exact p.mintedUpTo_zero
  | succ i ih =>
    rw [List.range_succ, List.map_append, List.foldl_append]
    have hc := hi (Nat.succ_pos i)
    exact (ih fun _ => hc).step hc

/-- The minted wallets and balances. -/
theorem mint_correct : p.MintedUpTo p.coinCount p.mint := by
  unfold mint
  rw [repeated_eq]
  exact p.mintedUpTo_foldl _ fun h => Nat.pos_of_mul_pos_left h

/-! ### Coins and their wallets -/

theorem coins_eq (w : WalletId) : p.coins w = (p.coinIds w).map fun c => (c, p.coinInitialValue) := rfl

theorem mem_coins {w : WalletId} {coin : CoinId × CoinValue} :
    coin ∈ p.coins w ↔ coin.1 ∈ p.coinIds w ∧ coin.2 = p.coinInitialValue := by
  rw [coins_eq, List.mem_map]
  constructor
  · intro h
    obtain ⟨c, hc, rfl⟩ := h
    exact ⟨hc, rfl⟩
  · intro h
    exact ⟨coin.1, h.1, Prod.ext rfl h.2.symm⟩

theorem mem_coinIds {w : WalletId} {c : CoinId} : c ∈ p.coinIds w ↔
    ∃ t, t < p.coinCount ∧ t / p.coinsPerWallet.toNat = w ∧ t % 2 ^ 64 = c := p.mem_idsUpTo

theorem mint_getD (w : WalletId) : p.mint.wallets.getD w [] = p.coins w := p.mint_correct.coins w

theorem mint_expected (w : WalletId) (c : CoinId) : p.mint.expectedFinalValues[(w, c)]? =
    if c ∈ p.coinIds w then some p.coinInitialValue else none := p.mint_correct.expected w c

theorem mem_mint_toList {item : WalletId × CoinList} :
    item ∈ p.mint.wallets.toList ↔ p.coinIds item.1 ≠ [] ∧ item.2 = p.coins item.1 := by
  obtain ⟨w, l⟩ := item
  rw [Std.ExtTreeMap.mem_toList_iff_getElem?_eq_some, p.mint_correct.wallets]
  show (if p.coinIds w = [] then none else some (p.coins w)) = some l ↔ _
  by_cases h : p.coinIds w = []
  · simp [h]
  · simpa [h] using eq_comm

/-- Below `2 ^ 64` coins, a coin belongs to one wallet. -/
theorem mem_coinIds_unique (h : p.coinCount < 2 ^ 64) {w w' : WalletId} {c : CoinId}
    (hw : c ∈ p.coinIds w) (hw' : c ∈ p.coinIds w') : w = w' := by
  obtain ⟨t, ht, rfl, rfl⟩ := p.mem_coinIds.mp hw
  obtain ⟨t', ht', rfl, hm⟩ := p.mem_coinIds.mp hw'
  rw [Nat.mod_eq_of_lt (by omega), Nat.mod_eq_of_lt (by omega)] at hm
  rw [hm]

theorem coinIds_wallet {w : WalletId} {c : CoinId} (h : c ∈ p.coinIds w) :
    w < p.numWallets.toNat := by
  obtain ⟨t, ht, rfl, -⟩ := p.mem_coinIds.mp h
  exact Nat.div_lt_of_lt_mul (by rw [Nat.mul_comm]; exact ht)

theorem count_repeated (n : UInt64) (w : WalletId) :
    (p.repeated n).count w = if w < p.numWallets.toNat then n.toNat else 0 := by
  unfold repeated
  induction p.numWallets.toNat with
  | zero => rfl
  | succ m ih =>
    rw [List.range_succ, List.flatMap_append, List.count_append, ih, List.flatMap_singleton,
      List.count_replicate]
    by_cases h : m = w
    · simp [h]
    · have hlt : w < m + 1 ↔ w < m := Nat.lt_succ_iff_lt_or_eq.trans (or_iff_left (Ne.symm h))
      simp [h, hlt]

/-- Every wallet has its coins. -/
theorem coinIds_length {w : WalletId} (hw : w < p.numWallets.toNat) :
    (p.coinIds w).length = p.coinsPerWallet.toNat := by
  have hcount : (p.coinIds w).length = (p.repeated p.coinsPerWallet).count w := by
    rw [repeated_eq, List.count, List.countP_map, List.countP_eq_length_filter, coinIds, idsUpTo,
      List.length_map]
    rfl
  rw [hcount, count_repeated, if_pos hw]

theorem mem_walletEntries {w : WalletId} (h : w ∈ p.walletEntries) : w < p.numWallets.toNat := by
  simp only [walletEntries, repeated, List.mem_flatMap, List.mem_range, List.mem_replicate] at h
  obtain ⟨v, hv, -, rfl⟩ := h
  exact hv

end Parameters
end CascadePlayground.Cbdc
