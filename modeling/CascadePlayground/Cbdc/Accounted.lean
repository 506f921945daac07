import CascadePlayground.Cbdc.Accounts

/-! The expected final values are the ledger's.

An `Update` is a `+=` or `-=` on an entry of `expected_final_values`, and it
`Fits` when it does not wrap. Updates that fit do to the book what the ledger's
debits and credits do.

`Accounted` is kept by every step (`Accounted.step`). The debit of a sender is
checked by the source. That the credits fit is checked nowhere: it holds because
the book after them is one that well formed transfers lead to, and so is bounded
by what was minted (`credits_fit`). -/
namespace CascadePlayground.Cbdc
open Ledger

/-! ### Updates of the balances -/

inductive Update where
  | add (item : WalletId × CoinId) (v : CoinValue)
  | sub (item : WalletId × CoinId) (v : CoinValue)
deriving DecidableEq, Repr

def Update.apply (e : Balances) : Update → Balances
  | .add item v => e.addAssign item v
  | .sub item v => e.subAssign item v

/-- The 32-bit sum or difference is the exact one. -/
def Update.Fits (e : Balances) : Update → Prop
  | .add item v => (e.val item).toNat + v.toNat < 2 ^ 32
  | .sub item v => v ≤ e.val item

/-- Each update fits where it is made. -/
def AllFit : Balances → List Update → Prop
  | _, [] => True
  | e, u :: us => u.Fits e ∧ AllFit (u.apply e) us

/-- The updates that go with `recv_pairs`. -/
def creditUpdates (id : WalletId) (pairs : CoinList) : List Update :=
  pairs.map fun pair => .add (id, pair.1) pair.2

theorem creditPairs_eq (id : WalletId) (pairs : CoinList) (e : Balances) :
    creditPairs id pairs e = (creditUpdates id pairs).foldl Update.apply e := by
  simp only [creditPairs, creditUpdates, List.foldl_map]
  rfl

theorem book_subAssign {e : Balances} {item : Account} {v : CoinValue} (hm : item ∈ e)
    (hv : v ≤ e.val item) : debit e.book (item, v.toNat) = some (e.subAssign item v).book := by
  obtain ⟨b, hb⟩ := Std.ExtTreeMap.mem_iff_isSome_getElem?.mp hm |> Option.isSome_iff_exists.mp
  have hval : e.val item = b := by rw [Balances.val_eq, hb]; rfl
  rw [hval] at hv
  have hbook : e.book item = some b.toNat := by rw [Balances.book, hb]; rfl
  unfold debit
  rw [hbook]
  show (if v.toNat ≤ b.toNat then _ else none) = _
  rw [if_pos (UInt32.le_iff_toNat_le.mp hv)]
  congr 1
  funext k
  show Function.update e.book item _ k = ((e.subAssign item v)[k]?).map _
  rw [Balances.getElem?_subAssign, hval]
  by_cases hk : item = k
  · subst hk
    rw [Function.update_self, if_pos rfl, Option.map_some, UInt32.toNat_sub_of_le _ _ hv]
  · rw [Function.update_of_ne (Ne.symm hk), if_neg hk]
    rfl

theorem book_addAssign {e : Balances} {item : Account} {v : CoinValue}
    (h : (e.val item).toNat + v.toNat < 2 ^ 32) :
    credit e.book (item, v.toNat) = (e.addAssign item v).book := by
  funext k
  show Function.update e.book item (some (e.book.value item + v.toNat)) k =
    ((e.addAssign item v)[k]?).map _
  rw [Balances.getElem?_addAssign, Balances.book_value]
  by_cases hk : item = k
  · subst hk
    rw [Function.update_self, if_pos rfl, Option.map_some, UInt32.toNat_add, Nat.mod_eq_of_lt h]
  · rw [Function.update_of_ne (Ne.symm hk), if_neg hk]
    rfl

/-- Credits fit when the ledger's book after them is below `2 ^ 32`, and then lead
to that book: credits only ever add. -/
theorem credits_fit (id : WalletId) (pairs : CoinList) (e : Balances)
    (h : ∀ c, (creditAll e.book (entries [(id, pairs)])).value (id, c) < 2 ^ 32) :
    AllFit e (creditUpdates id pairs) ∧
      (creditPairs id pairs e).book = creditAll e.book (entries [(id, pairs)]) := by
  induction pairs generalizing e with
  | nil => exact ⟨trivial, rfl⟩
  | cons pair rest ih =>
    have hcons : creditAll e.book (entries [(id, pair :: rest)]) =
        creditAll (credit e.book ((id, pair.1), pair.2.toNat)) (entries [(id, rest)]) := by
      simp [entries, creditAll]
    have hfit : (e.val (id, pair.1)).toNat + pair.2.toNat < 2 ^ 32 := by
      have := h pair.1
      rw [creditAll_value, Balances.book_value] at this
      simp only [entries, List.flatMap_cons, List.flatMap_nil, List.append_nil, List.map_cons,
        total_cons, if_true] at this
      omega
    rw [hcons, book_addAssign hfit] at h
    obtain ⟨hrest, hbook⟩ := ih _ h
    refine ⟨⟨hfit, hrest⟩, ?_⟩
    rw [hcons, book_addAssign hfit]
    exact hbook

/-- The search for a coin leaves balances that have all its entries as they are. -/
theorem findCoin_present {amount : CoinValue} {id : WalletId} {coins : CoinList} {e : Balances}
    (h : ∀ coin ∈ coins, (id, coin.1) ∈ e) : (findCoin amount id coins e).2 = e := by
  induction coins with
  | nil => rfl
  | cons coin rest ih =>
    simp only [findCoin, Balances.touch_of_mem (h coin (List.mem_cons_self ..))]
    split
    · rfl
    · exact ih fun coin hc => h coin (List.mem_cons_of_mem _ hc)

/-! ### The machine and the ledger -/

/-- The transfer under construction, if there is one. -/
def State.current (s : State) : List BenchmarkTransfer :=
  match s.control with
  | .transfers | .returned => []
  | _ => [s.transfer]

/-- Every transfer that has been begun. -/
def State.begun (s : State) : List BenchmarkTransfer := s.transfers ++ s.current

def Accounted (p : Parameters) (s : State) : Prop :=
  s.control ≠ .undefined →
    executeAll p.mintedBook (postings s.begun) = some s.expectedFinalValues.book

theorem accounted_start (p : Parameters) (order : Shuffled p) : Accounted p (start p order) :=
  fun _ => rfl

variable {p : Parameters} {s : State}

/-- Every minted coin has its entry. -/
theorem Accounted.present (h : Accounted p s) (hc : s.control ≠ .undefined) {w : WalletId}
    {c : CoinId} (hcoin : c ∈ p.coinIds w) : (w, c) ∈ s.expectedFinalValues := by
  have hsome := executeAll_isSome _ (h hc) (k := (w, c))
    (by rw [mintedBook_apply, if_pos hcoin]; rfl)
  rw [Std.ExtTreeMap.mem_iff_isSome_getElem?]
  simpa [Balances.book] using hsome

theorem Accounted.findCoin (h : Accounted p s) (hi : Inv p s) (hc : s.control ≠ .undefined)
    (id : WalletId) :
    (findCoin p.transferValuePerWallet id (s.wallets.getD id []) s.expectedFinalValues).2 =
      s.expectedFinalValues := by
  apply findCoin_present
  intro coin hcoin
  rw [hi.coins, Parameters.mem_coins] at hcoin
  exact h.present hc hcoin.1

theorem Accounted.congr {s' : State} (h : Accounted p s) (hc : s.control ≠ .undefined)
    (hb : s'.begun = s.begun) (he : s'.expectedFinalValues = s.expectedFinalValues) :
    Accounted p s' := by
  intro _
  rw [hb, he]
  exact h hc

theorem postings_concat (ts : List BenchmarkTransfer) (t : BenchmarkTransfer) :
    postings (ts ++ [t]) = postings ts ++ [t.posting] := by
  simp [postings]

/-- A sender is debited: the posting of the transfer gains a debit. -/
theorem Accounted.pickSender (h : Accounted p s) (hi : Inv p s) {id : WalletId}
    (hc : s.control = .senderSearch id) : Accounted p (s.pickSender p id) := by
  have hu : s.control ≠ .undefined := by rw [hc]; exact fun h => by cases h
  have hb := hi.building (by rw [hc]; rfl)
  obtain ⟨node, hd, _⟩ := hb.target id (.inl hc)
  have hbegun : s.begun = s.transfers ++ [s.transfer] := by simp [State.begun, State.current, hc]
  have hbook := h hu
  rw [hbegun, postings_concat, executeAll_concat] at hbook
  rcases pickSender_spec hd p id with ⟨e, hfound, he⟩ | ⟨c, e, list, hfound, _, _, _, _, he⟩
  · have hsame : e = s.expectedFinalValues := by
      have := h.findCoin hi hu id
      rw [hfound] at this
      exact this
    rw [he]
    exact h.congr hu (by rw [hbegun]; rfl) hsame
  · have hsame : e = s.expectedFinalValues := by
      have := h.findCoin hi hu id
      rw [hfound] at this
      exact this
    have hle := (findCoin_some hfound).2
    rw [hsame] at hle
    have hcoin : c ∈ p.coinIds id := mem_coinIds_of_findCoin (hi.coins id) hfound
    have hnil : s.transfer.receivers = [] := by
      have := hi.progress
      rw [hc] at this
      exact this.1
    intro _
    rw [he]
    show executeAll p.mintedBook (postings (s.transfers ++
      [{s.transfer with senders := s.transfer.senders ++ [(id, [(c, p.transferValuePerWallet)])]}])) =
        some (e.subAssign (id, c) p.transferValuePerWallet).book
    have hposting : ({s.transfer with senders := s.transfer.senders ++
        [(id, [(c, p.transferValuePerWallet)])]} : BenchmarkTransfer).posting =
          ⟨entries s.transfer.senders ++ [((id, c), p.transferValuePerWallet.toNat)], []⟩ := by
      simp [BenchmarkTransfer.posting, entries, hnil]
    have hold : s.transfer.posting = ⟨entries s.transfer.senders, []⟩ := by
      simp [BenchmarkTransfer.posting, entries, hnil]
    rw [hold] at hbook
    rw [postings_concat, executeAll_concat, hposting, hsame]
    obtain ⟨b, hb, hexec⟩ := Option.bind_eq_some_iff.mp hbook
    rw [hb, Option.bind_some, execute_debits_concat, hexec, Option.bind_some]
    exact book_subAssign (h.present hu hcoin) hle

/-- What the ledger's book is after a receiver has been credited. -/
theorem Accounted.credited (h : Accounted p s) {id : WalletId} (hc : s.control = .receiverSearch id) :
    executeAll p.mintedBook (postings (s.transfers ++ [{s.transfer with
      receivers := s.transfer.receivers ++ [(id, recvPairs p s.transfer.senders)]}])) =
      some (creditAll s.expectedFinalValues.book (entries [(id, recvPairs p s.transfer.senders)])) := by
  have hbegun : s.begun = s.transfers ++ [s.transfer] := by simp [State.begun, State.current, hc]
  have hbook := h (by rw [hc]; exact fun h => by cases h)
  rw [hbegun, postings_concat, executeAll_concat] at hbook
  have hposting : ({s.transfer with receivers := s.transfer.receivers ++
      [(id, recvPairs p s.transfer.senders)]} : BenchmarkTransfer).posting =
        ⟨entries s.transfer.senders,
          entries s.transfer.receivers ++ entries [(id, recvPairs p s.transfer.senders)]⟩ := by
    simp [BenchmarkTransfer.posting, entries]
  rw [postings_concat, executeAll_concat, hposting]
  obtain ⟨b, hb, hexec⟩ := Option.bind_eq_some_iff.mp hbook
  rw [hb, Option.bind_some, execute_credits_append]
  exact congrArg (Option.map _) hexec

/-- The credits of a receiver fit, and lead to the ledger's book. -/
theorem Accounted.credits (h : Accounted p s) (hi : Inv p s) (hcoins : p.coinCount < 2 ^ 64)
    {id : WalletId} (hc : s.control = .receiverSearch id) (hid : id ∉ s.picked) :
    AllFit s.expectedFinalValues (creditUpdates id (recvPairs p s.transfer.senders)) ∧
      (creditPairs id (recvPairs p s.transfer.senders) s.expectedFinalValues).book =
        creditAll s.expectedFinalValues.book (entries [(id, recvPairs p s.transfer.senders)]) := by
  have hb := hi.building (by rw [hc]; rfl)
  obtain ⟨node, hd, rfl⟩ := hb.target id (.inr hc)
  have hwallet : node.wallet < p.numWallets.toNat := by
    obtain ⟨_, _, hperm, _⟩ := pickReceiver_spec hd p node.wallet
    exact hi.entries node (hperm.mem_iff.mpr (List.mem_cons_self ..))
  have hprogress := hi.progress
  rw [hc] at hprogress
  have hall : ∀ t ∈ s.transfers ++ [{s.transfer with receivers := s.transfer.receivers ++
      [(node.wallet, recvPairs p s.transfer.senders)]}],
      WellFormed p t ∧ t.receivers.length ≤ p.receiversPerTransfer.toNat := by
    intro t ht
    rcases List.mem_append.mp ht with ht | ht
    · exact ⟨(hi.recorded t ht).toWellFormed, Nat.le_of_eq (hi.recorded t ht).receiverCount⟩
    · rw [List.mem_singleton.mp ht]
      refine ⟨hi.wellFormed.addReceiver (by rw [← hb.picked]; exact hid) hwallet, ?_⟩
      show (s.transfer.receivers ++ _).length ≤ _
      rw [List.length_append]
      exact hprogress.2
  apply credits_fit
  intro c
  exact Nat.lt_of_le_of_lt (book_bound hcoins hall (h.credited hc) hwallet c) p.coinInitialValue.toNat_lt

theorem Accounted.pickReceiver (h : Accounted p s) (hi : Inv p s) (hcoins : p.coinCount < 2 ^ 64)
    {id : WalletId} (hc : s.control = .receiverSearch id) (hid : id ∉ s.picked) :
    Accounted p (s.pickReceiver p id) := by
  have hb := hi.building (by rw [hc]; rfl)
  obtain ⟨node, hd, _⟩ := hb.target id (.inr hc)
  obtain ⟨list, _, _, _, _, he⟩ := pickReceiver_spec hd p id
  intro _
  rw [he]
  show executeAll p.mintedBook (postings (s.transfers ++ [{s.transfer with
    receivers := s.transfer.receivers ++ [(id, recvPairs p s.transfer.senders)]}])) =
      some (creditPairs id (recvPairs p s.transfer.senders) s.expectedFinalValues).book
  rw [h.credited hc, (h.credits hi hcoins hc hid).2]

/-- Reading the next wallet changes no balance. -/
theorem Accounted.search (h : Accounted p s) {resume : WalletId → Control}
    (hc : s.control = .senders ∨ s.control = .receivers)
    (hr : ∀ w, ({s with control := resume w} : State).current = [s.transfer]) :
    Accounted p (s.search resume) := by
  have hu : s.control ≠ .undefined := by rcases hc with hc | hc <;> rw [hc] <;> decide
  have hcur : s.current = [s.transfer] := by rcases hc with hc | hc <;> simp [State.current, hc]
  cases hd : s.walletList.deref with
  | none =>
    rw [State.search_none hd]
    exact fun hne => absurd rfl hne
  | some node =>
    rw [State.search_some hd]
    refine h.congr hu ?_ rfl
    rw [State.begun, State.begun, hr, hcur]

/-- Every step keeps the expected final values accounted for, iterators told apart
by their nodes. -/
theorem Accounted.step {s' : State} (h : Accounted p s) (hi : Inv p s) (hcoins : p.coinCount < 2 ^ 64)
    (hs : s' ∈ next p false s) : Accounted p s' := by
  have hb := hi.building
  cases move_of_next hs with
  | begin hc _ =>
    have hbook := h (by rw [hc]; decide)
    have hbegun : s.begun = s.transfers := by simp [State.begun, State.current, hc]
    intro _
    show executeAll p.mintedBook (postings (s.transfers ++ [⟨[], []⟩])) = _
    rw [postings_concat, executeAll_concat, ← hbegun, hbook]
    rfl
  | finish hc _ =>
    refine h.congr (by rw [hc]; decide) ?_ rfl
    simp [State.begun, State.current, hc]
  | nextSender hc _ => exact h.search (.inl hc) fun _ => rfl
  | sendersDone hc _ =>
    refine h.congr (by rw [hc]; decide) ?_ rfl
    simp [State.begun, State.current, hc]
  | senderTaken id hc hid =>
    rw [hc] at hb
    obtain ⟨list, _, node', _, _, _, _, _, _, _, _, he⟩ :=
      (hb rfl).searchOn_false (.inl hc) hid .senderSearch .returned
    rw [he]
    refine h.congr (by rw [hc]; simp) ?_ rfl
    simp [State.begun, State.current, hc]
  | sender id hc _ => exact h.pickSender hi hc
  | nextReceiver hc _ => exact h.search (.inr hc) fun _ => rfl
  | push hc _ =>
    refine h.congr (by rw [hc]; decide) ?_ rfl
    simp [State.begun, State.current, hc]
  | receiverTaken id hc hid =>
    rw [hc] at hb
    obtain ⟨list, _, node', _, _, _, _, _, _, _, _, he⟩ :=
      (hb rfl).searchOn_false (.inr hc) hid .receiverSearch .transfers
    rw [he]
    refine h.congr (by rw [hc]; simp) ?_ rfl
    simp [State.begun, State.current, hc]
  | receiver id hc hid => exact h.pickReceiver hi hcoins hc hid

theorem Accounted.reached (hcoins : p.coinCount < 2 ^ 64) {order : Shuffled p}
    (h : Reached p order s) : Accounted p s := by
  have hboth : Inv p s ∧ Accounted p s :=
    Transition.Preserved.run (I := fun s => Inv p s ∧ Accounted p s)
      (fun _ _ hs hn => ⟨hs.1.step hn, hs.2.step hs.1 hcoins hn⟩) h
      ⟨inv_start p order, accounted_start p order⟩
  exact hboth.2

end CascadePlayground.Cbdc
