import CascadePlayground.Cbdc.Shape
import CascadePlayground.Ledger
import Mathlib.Algebra.Order.BigOperators.Group.Finset
import Mathlib.Tactic.Ring

/-! Transfers as postings to a ledger.

The accounts are the pairs of a wallet and a coin. A transfer debits its senders
and credits its receivers (`posting`), the minted balances are a book
(`mintedBook`), and the expected final values are another (`Balances.book`).

For every coin, what well formed transfers credit over all wallets is what they
debit, less what the division by the number of receivers leaves over
(`posted_debits`, `posted_credits`). So no book they lead to holds more of a coin
than was minted (`book_bound`), which is below `2 ^ 32`.

`Accounted` connects the machine to the ledger: at every point of a run
`expected_final_values` is the book that the recorded transfers and the one under
construction lead to, executed one after the other from the minted balances. -/
namespace CascadePlayground.Cbdc
open Ledger

abbrev Account := WalletId × CoinId

/-- The coin entries of some wallets, as entries to their accounts. -/
def entries (l : List (WalletId × CoinList)) : List (Account × Nat) :=
  l.flatMap fun x => x.2.map fun coin => ((x.1, coin.1), coin.2.toNat)

def BenchmarkTransfer.posting (t : BenchmarkTransfer) : Posting Account :=
  ⟨entries t.senders, entries t.receivers⟩

def postings (ts : List BenchmarkTransfer) : List (Posting Account) :=
  ts.map BenchmarkTransfer.posting

def Balances.book (e : Balances) : Book Account := fun k => e[k]?.map UInt32.toNat

def Parameters.mintedBook (p : Parameters) : Book Account := p.mint.expectedFinalValues.book

theorem Balances.book_value (e : Balances) (k : Account) : e.book.value k = (e.val k).toNat := by
  rw [Balances.val_eq, Book.value, Balances.book]
  cases e[k]? <;> rfl

theorem mintedBook_apply (p : Parameters) (w : WalletId) (c : CoinId) :
    p.mintedBook (w, c) = if c ∈ p.coinIds w then some p.coinInitialValue.toNat else none := by
  show (p.mint.expectedFinalValues[(w, c)]?).map _ = _
  rw [p.mint_expected]
  split <;> rfl

/-! ### What transfers post to a coin -/

/-- The accounts that hold the coin. -/
def holders (p : Parameters) (c : CoinId) : Finset Account := Finset.range p.numWallets.toNat ×ˢ {c}

theorem sum_holders (p : Parameters) (c : CoinId) (f : Account → Nat) :
    ∑ k ∈ holders p c, f k = ∑ w ∈ Finset.range p.numWallets.toNat, f (w, c) := by
  rw [holders, Finset.sum_product]
  exact Finset.sum_congr rfl fun w _ => Finset.sum_singleton _ _

/-- How many sender entries of the transfers spend the coin. -/
def spends (c : CoinId) (ts : List BenchmarkTransfer) : Nat :=
  (ts.flatMap BenchmarkTransfer.spent).countP fun coin => coin.1 = c

theorem spends_append (c : CoinId) (ts ts' : List BenchmarkTransfer) :
    spends c (ts ++ ts') = spends c ts + spends c ts' := by
  simp [spends]

/-- What the coin entries of one wallet post to a coin, all of one value. -/
theorem posted_coins {p : Parameters} (c : CoinId) (v : CoinValue) {w : WalletId}
    (hw : w < p.numWallets.toNat) (l : CoinList) (hv : ∀ coin ∈ l, coin.2 = v) :
    posted (holders p c) (l.map fun coin => ((w, coin.1), coin.2.toNat)) =
      l.countP (fun coin => coin.1 = c) * v.toNat := by
  induction l with
  | nil => simp
  | cons coin rest ih =>
    have hrest := ih fun coin hc => hv coin (List.mem_cons_of_mem _ hc)
    have hval := hv coin (List.mem_cons_self ..)
    simp only [posted, holders, List.map_cons, List.sum_cons, Finset.mem_product, Finset.mem_range,
      Finset.mem_singleton, hw, true_and, List.countP_cons, decide_eq_true_eq] at hrest ⊢
    rw [hrest, hval]
    split <;> ring

theorem posted_entries {p : Parameters} (c : CoinId) (v : CoinValue)
    (l : List (WalletId × CoinList)) (hw : ∀ x ∈ l, x.1 < p.numWallets.toNat)
    (hv : ∀ x ∈ l, ∀ coin ∈ x.2, coin.2 = v) :
    posted (holders p c) (entries l) = (l.flatMap Prod.snd).countP (fun coin => coin.1 = c) * v.toNat := by
  induction l with
  | nil => simp [entries]
  | cons x l ih =>
    have hx := posted_coins c v (hw x (List.mem_cons_self ..)) x.2 (hv x (List.mem_cons_self ..))
    have hrest := ih (fun y hy => hw y (List.mem_cons_of_mem _ hy))
      (fun y hy => hv y (List.mem_cons_of_mem _ hy))
    have hcons : entries (x :: l) = x.2.map (fun coin => ((x.1, coin.1), coin.2.toNat)) ++ entries l := rfl
    rw [hcons, posted_append, hx, hrest, List.flatMap_cons, List.countP_append]
    ring

variable {p : Parameters} {t : BenchmarkTransfer}

theorem WellFormed.sender_lt (h : WellFormed p t) {x : WalletId × CoinList} (hx : x ∈ t.senders) :
    x.1 < p.numWallets.toNat :=
  h.bound x.1 (List.mem_append.mpr (.inl (List.mem_map_of_mem hx)))

theorem WellFormed.receiver_lt (h : WellFormed p t) {y : WalletId × CoinList} (hy : y ∈ t.receivers) :
    y.1 < p.numWallets.toNat :=
  h.bound y.1 (List.mem_append.mpr (.inr (List.mem_map_of_mem hy)))

theorem WellFormed.posted_debits (h : WellFormed p t) (c : CoinId) :
    posted (holders p c) t.posting.debits = spends c [t] * p.transferValuePerWallet.toNat := by
  have := posted_entries c p.transferValuePerWallet t.senders (fun x hx => h.sender_lt hx)
    (fun x hx coin hc => h.spent_value (List.mem_flatMap.mpr ⟨x, hx, hc⟩))
  simpa [BenchmarkTransfer.posting, spends, BenchmarkTransfer.spent] using this

theorem WellFormed.posted_credits (h : WellFormed p t) (c : CoinId) :
    posted (holders p c) t.posting.credits =
      t.receivers.length * (spends c [t] * (p.valueIn p.transferValuePerWallet).toNat) := by
  have hpost := posted_entries c (p.valueIn p.transferValuePerWallet) t.receivers
    (fun y hy => h.receiver_lt hy) (fun y hy coin hc => h.received_value hy hc)
  have hcount : (t.receivers.flatMap Prod.snd).countP (fun coin => coin.1 = c) =
      t.receivers.length * spends c [t] := by
    have hall : ∀ l : List (WalletId × CoinList), (∀ y ∈ l, y ∈ t.receivers) →
        (l.flatMap Prod.snd).countP (fun coin => coin.1 = c) = l.length * spends c [t] := by
      intro l hl
      induction l with
      | nil => simp
      | cons y l ih =>
        have hy : y.2.countP (fun coin => coin.1 = c) = spends c [t] := by
          rw [h.received (hl y (List.mem_cons_self ..)), List.countP_map]
          simp [spends, Function.comp_def]
        rw [List.flatMap_cons, List.countP_append, hy,
          ih fun y hy => hl y (List.mem_cons_of_mem _ hy), List.length_cons]
        ring
    exact hall t.receivers fun y hy => hy
  rw [BenchmarkTransfer.posting, hpost, hcount, Nat.mul_assoc]

/-- `value_in` as a number. -/
theorem valueIn_toNat (p : Parameters) (v : CoinValue) :
    (p.valueIn v).toNat = v.toNat / p.receiversPerTransfer.toNat := by
  have hle : v.toNat / p.receiversPerTransfer.toNat < 2 ^ 32 :=
    Nat.lt_of_le_of_lt (Nat.div_le_self _ _) v.toNat_lt
  show (v.toUInt64 / p.receiversPerTransfer).toNat % 2 ^ 32 = _
  rw [UInt64.toNat_div, UInt32.toNat_toUInt64, Nat.mod_eq_of_lt hle]

/-- `transfer_value_per_wallet` as a number. -/
theorem transferValuePerWallet_toNat (p : Parameters) : p.transferValuePerWallet.toNat =
    p.transferValue.toNat * p.receiversPerTransfer.toNat % 2 ^ 32 := by
  show (p.transferValue.toUInt64 * p.receiversPerTransfer).toNat % 2 ^ 32 = _
  rw [UInt64.toNat_mul, UInt32.toNat_toUInt64]
  exact Nat.mod_mod_of_dvd _ (by decide)

/-- Over all wallets, completed transfers credit what they debit, less the rest of
the division for each sender entry. -/
theorem posted_completed {ts : List BenchmarkTransfer} (h : ∀ t ∈ ts, Completed p t) (c : CoinId) :
    posted (holders p c) (allDebits (postings ts)) =
      posted (holders p c) (allCredits (postings ts)) +
        spends c ts * (p.transferValuePerWallet.toNat % p.receiversPerTransfer.toNat) := by
  induction ts with
  | nil => simp [postings, spends, allDebits, allCredits]
  | cons t ts ih =>
    have ht := h t (List.mem_cons_self ..)
    have hts := ih fun t ht => h t (List.mem_cons_of_mem _ ht)
    have hd := ht.posted_debits c
    have hc := ht.posted_credits c
    have hmod := Nat.div_add_mod p.transferValuePerWallet.toNat p.receiversPerTransfer.toNat
    have hspends : spends c (t :: ts) = spends c [t] + spends c ts := spends_append c [t] ts
    rw [valueIn_toNat, ht.receiverCount] at hc
    simp only [postings, List.map_cons, allDebits_cons, allCredits_cons, posted_append] at hts ⊢
    rw [hts, hd, hc, hspends]
    generalize p.transferValuePerWallet.toNat % p.receiversPerTransfer.toNat = r at *
    generalize p.transferValuePerWallet.toNat / p.receiversPerTransfer.toNat = q at *
    rw [← hmod]
    ring

/-- No transfer credits more than it debits, however far it has been built. -/
theorem posted_le {ts : List BenchmarkTransfer}
    (h : ∀ t ∈ ts, WellFormed p t ∧ t.receivers.length ≤ p.receiversPerTransfer.toNat) (c : CoinId) :
    posted (holders p c) (allCredits (postings ts)) ≤ posted (holders p c) (allDebits (postings ts)) := by
  induction ts with
  | nil => exact Nat.le_refl _
  | cons t ts ih =>
    obtain ⟨ht, hlen⟩ := h t (List.mem_cons_self ..)
    have hts := ih fun t ht => h t (List.mem_cons_of_mem _ ht)
    simp only [postings, List.map_cons, allDebits_cons, allCredits_cons, posted_append] at hts ⊢
    refine Nat.add_le_add ?_ hts
    rw [ht.posted_debits c, ht.posted_credits c, valueIn_toNat]
    calc t.receivers.length *
          (spends c [t] * (p.transferValuePerWallet.toNat / p.receiversPerTransfer.toNat))
        = spends c [t] * (t.receivers.length *
          (p.transferValuePerWallet.toNat / p.receiversPerTransfer.toNat)) := by ring
      _ ≤ spends c [t] * (p.receiversPerTransfer.toNat *
          (p.transferValuePerWallet.toNat / p.receiversPerTransfer.toNat)) :=
        Nat.mul_le_mul_left _ (Nat.mul_le_mul_right _ hlen)
      _ ≤ spends c [t] * p.transferValuePerWallet.toNat :=
        Nat.mul_le_mul_left _ (Nat.mul_div_le _ _)

/-! ### What was minted -/

theorem sum_minted (hcoins : p.coinCount < 2 ^ 64) {w : WalletId} {c : CoinId}
    (hc : c ∈ p.coinIds w) :
    ∑ w' ∈ Finset.range p.numWallets.toNat, p.mintedBook.value (w', c) = p.coinInitialValue.toNat := by
  rw [Finset.sum_eq_single_of_mem w (Finset.mem_range.mpr (p.coinIds_wallet hc))]
  · rw [Book.value, mintedBook_apply, if_pos hc]
    rfl
  · intro w' _ hne
    rw [Book.value, mintedBook_apply, if_neg fun h => hne (p.mem_coinIds_unique hcoins h hc)]
    rfl

theorem sum_minted_le (hcoins : p.coinCount < 2 ^ 64) (c : CoinId) :
    ∑ w ∈ Finset.range p.numWallets.toNat, p.mintedBook.value (w, c) ≤ p.coinInitialValue.toNat := by
  by_cases hc : ∃ w, c ∈ p.coinIds w
  · obtain ⟨w, hc⟩ := hc
    exact Nat.le_of_eq (sum_minted hcoins hc)
  · rw [Finset.sum_eq_zero]
    · exact Nat.zero_le _
    · intro w _
      rw [Book.value, mintedBook_apply, if_neg fun h => hc ⟨w, h⟩]
      rfl

/-- No account ever holds more of a coin than was minted of it. -/
theorem book_bound (hcoins : p.coinCount < 2 ^ 64) {ts : List BenchmarkTransfer}
    (h : ∀ t ∈ ts, WellFormed p t ∧ t.receivers.length ≤ p.receiversPerTransfer.toNat)
    {b : Book Account} (hb : executeAll p.mintedBook (postings ts) = some b) {w : WalletId}
    (hw : w < p.numWallets.toNat) (c : CoinId) : b.value (w, c) ≤ p.coinInitialValue.toNat := by
  have hsum := executeAll_sum (holders p c) (postings ts) hb
  have hle := posted_le h c
  have hmint := sum_minted_le hcoins c
  rw [sum_holders, sum_holders] at hsum
  have hone : b.value (w, c) ≤ ∑ w' ∈ Finset.range p.numWallets.toNat, b.value (w', c) :=
    Finset.single_le_sum (f := fun w' => b.value (w', c)) (fun _ _ => Nat.zero_le _)
      (Finset.mem_range.mpr hw)
  omega

end CascadePlayground.Cbdc
