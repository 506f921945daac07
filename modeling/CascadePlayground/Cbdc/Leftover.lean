import CascadePlayground.Cbdc.Selection
import CascadePlayground.Cbdc.AnyOrder

/-! What a transfer leaves behind that is not recorded.

Debits and credits are made pick by pick, so the balances are always those of the
transfers begun (`Applied`), and not only of those recorded. A transfer that is
begun and not recorded is one that was given up through `finish`, or in which a
sender had no funds. The balances are still those of the recorded transfers exactly
when what was built of it changes nothing (`applyTransfer_eq_self_iff`): nothing
takes its debits back. -/
namespace CascadePlayground.Cbdc
open StateTransition (Reaches)
open Ledger

/-- The debits and credits of a transfer, as `generate` makes them. -/
def withdrawAll (l : List (Account × CoinValue)) (e : Balances) : Balances :=
  l.foldl (fun e x => e.subAssign x.1 x.2) e

def depositAll (l : List (Account × CoinValue)) (e : Balances) : Balances :=
  l.foldl (fun e x => e.addAssign x.1 x.2) e

def applyTransfer (e : Balances) (t : BenchmarkTransfer) : Balances :=
  depositAll (items t.receivers) (withdrawAll (items t.senders) e)

/-- The minted balances with the recorded transfers applied, in order. -/
def State.recorded (s : State) : Balances := s.transfers.foldl applyTransfer (mintWallets s.wallets)

def State.Consistent (s : State) : Prop := s.expectedFinalValues = s.recorded

/-! ### What a transfer changes -/

section Change
variable {l : List (Account × CoinValue)} {e : Balances} {k : Account}

theorem mem_withdrawAll (h : k ∈ e) : k ∈ withdrawAll l e := by
  induction l generalizing e with
  | nil => exact h
  | cons x l ih => exact ih (Std.ExtTreeMap.mem_insert.mpr (.inr h))

theorem mem_depositAll (h : k ∈ e ∨ k ∈ l.map Prod.fst) : k ∈ depositAll l e := by
  induction l generalizing e with
  | nil => exact h.resolve_right List.not_mem_nil
  | cons x l ih =>
    apply ih
    rcases h with h | h
    · exact .inl (Std.ExtTreeMap.mem_insert.mpr (.inr h))
    · rcases List.mem_cons.mp h with rfl | h
      · exact .inl Std.ExtTreeMap.mem_insert_self
      · exact .inr h

theorem mem_applyTransfer {t : BenchmarkTransfer} (h : k ∈ e) : k ∈ applyTransfer e t :=
  mem_depositAll (.inl (mem_withdrawAll h))

theorem mem_foldl_applyTransfer {ts : List BenchmarkTransfer} (h : k ∈ e) :
    k ∈ ts.foldl applyTransfer e := by
  induction ts generalizing e with
  | nil => exact h
  | cons t ts ih => exact ih (mem_applyTransfer h)

theorem withdrawAll_val (h : k ∉ l.map Prod.fst) : (withdrawAll l e).val k = e.val k := by
  induction l generalizing e with
  | nil => rfl
  | cons x l ih =>
    rw [List.map_cons, List.mem_cons, not_or] at h
    show (withdrawAll l (e.subAssign x.1 x.2)).val k = _
    rw [ih h.2, Balances.val_subAssign, if_neg (Ne.symm h.1)]

theorem depositAll_val (h : k ∉ l.map Prod.fst) : (depositAll l e).val k = e.val k := by
  induction l generalizing e with
  | nil => rfl
  | cons x l ih =>
    rw [List.map_cons, List.mem_cons, not_or] at h
    show (depositAll l (e.addAssign x.1 x.2)).val k = _
    rw [ih h.2, Balances.val_addAssign, if_neg (Ne.symm h.1)]

/-- Updates by zero of entries that are there change nothing. -/
theorem withdrawAll_zero (h : ∀ x ∈ l, x.1 ∈ e ∧ x.2 = 0) : withdrawAll l e = e := by
  induction l with
  | nil => rfl
  | cons x l ih =>
    obtain ⟨hx, hzero⟩ := h x (List.mem_cons_self ..)
    have hself : e.subAssign x.1 x.2 = e := by
      rw [Balances.subAssign, hzero, UInt32.sub_zero, Balances.insert_val hx]
    show withdrawAll l (e.subAssign x.1 x.2) = e
    rw [hself]
    exact ih fun y hy => h y (List.mem_cons_of_mem _ hy)

theorem depositAll_zero (h : ∀ x ∈ l, x.1 ∈ e ∧ x.2 = 0) : depositAll l e = e := by
  induction l with
  | nil => rfl
  | cons x l ih =>
    obtain ⟨hx, hzero⟩ := h x (List.mem_cons_self ..)
    have hself : e.addAssign x.1 x.2 = e := by
      rw [Balances.addAssign, hzero, UInt32.add_zero, Balances.insert_val hx]
    show depositAll l (e.addAssign x.1 x.2) = e
    rw [hself]
    exact ih fun y hy => h y (List.mem_cons_of_mem _ hy)

end Change

variable {p : Parameters} {s s' : State} {t : BenchmarkTransfer}

theorem items_wallet {l : List (WalletId × CoinList)} {k : Account} (h : k ∈ (items l).map Prod.fst) :
    k.1 ∈ l.map Prod.fst := by
  obtain ⟨x, hx, rfl⟩ := List.mem_map.mp h
  obtain ⟨y, hy, hx⟩ := List.mem_flatMap.mp hx
  obtain ⟨coin, _, rfl⟩ := List.mem_map.mp hx
  exact List.mem_map_of_mem hy

/-- Wallets that take no part keep what they have. -/
theorem applyTransfer_val {e : Balances} {k : Account} (h : k.1 ∉ t.wallets) :
    (applyTransfer e t).val k = e.val k := by
  rw [BenchmarkTransfer.wallets, List.mem_append, not_or] at h
  rw [applyTransfer, depositAll_val (mt items_wallet h.2), withdrawAll_val (mt items_wallet h.1)]

/-- A sender has been debited once. -/
theorem WellFormed.applyTransfer_sender (h : WellFormed p t) {w : WalletId} {c : CoinId}
    (hx : (w, [(c, p.transferValuePerWallet)]) ∈ t.senders) (e : Balances) :
    (applyTransfer e t).val (w, c) = e.val (w, c) - p.transferValuePerWallet := by
  have hd := h.distinct
  rw [BenchmarkTransfer.wallets, List.nodup_append] at hd
  obtain ⟨a, b, hab⟩ := List.append_of_mem hx
  have hw : w ∉ a.map Prod.fst ∧ w ∉ b.map Prod.fst := by
    have hsenders := hd.1
    rw [hab, List.map_append, List.map_cons, List.nodup_append, List.nodup_cons] at hsenders
    exact ⟨fun hm => hsenders.2.2 w hm w (List.mem_cons_self ..) rfl, hsenders.2.1.1⟩
  have hreceivers : w ∉ t.receivers.map Prod.fst :=
    fun hm => hd.2.2 w (List.mem_map_of_mem hx) w hm rfl
  have hsplit : withdrawAll (items t.senders) e =
      withdrawAll (items b) ((withdrawAll (items a) e).subAssign (w, c) p.transferValuePerWallet) := by
    rw [hab, withdrawAll, items, List.flatMap_append, List.flatMap_cons, List.foldl_append,
      List.foldl_append]
    rfl
  rw [applyTransfer, depositAll_val (mt items_wallet hreceivers), hsplit,
    withdrawAll_val (mt items_wallet hw.2), Balances.val_subAssign, if_pos rfl,
    withdrawAll_val (mt items_wallet hw.1)]

/-- A transfer changes nothing when it has no sender, or when it moves nothing and
creates no entry. -/
theorem WellFormed.applyTransfer_eq_self_iff (h : WellFormed p t) {e : Balances}
    (hcoins : ∀ w, ∀ c ∈ p.coinIds w, (w, c) ∈ e) :
    applyTransfer e t = e ↔
      t.senders = [] ∨ (p.transferValuePerWallet = 0 ∧ ∀ x ∈ items t.receivers, x.1 ∈ e) := by
  constructor
  · intro heq
    rcases List.eq_nil_or_concat t.senders with hnil | ⟨rest, x, hsenders⟩
    · exact .inl hnil
    · have hx : x ∈ t.senders := by simp [hsenders]
      obtain ⟨c, _, hc⟩ := h.senders x hx
      have hval := h.applyTransfer_sender (w := x.1) (c := c) (hc ▸ hx) e
      rw [heq] at hval
      refine .inr ⟨UInt32.left_eq_add.mp (UInt32.sub_eq_iff_eq_add.mp hval.symm), fun y hy => ?_⟩
      rw [← heq]
      exact mem_depositAll (.inr (List.mem_map_of_mem hy))
  · intro hcase
    rcases hcase with hnil | ⟨hzero, hmem⟩
    · have hitems : items t.receivers = [] := by
        apply List.flatMap_eq_nil_iff.mpr
        intro y hy
        rw [h.receivers y hy, hnil]
        rfl
      rw [applyTransfer, hitems, hnil]
      rfl
    · have hdebits : withdrawAll (items t.senders) e = e := by
        apply withdrawAll_zero
        intro x hx
        obtain ⟨y, hy, hx⟩ := List.mem_flatMap.mp hx
        obtain ⟨c, hc, hy2⟩ := h.senders y hy
        rw [hy2] at hx
        obtain rfl := List.mem_singleton.mp hx
        exact ⟨hcoins _ c hc, hzero⟩
      have hcredits : depositAll (items t.receivers) e = e := by
        apply depositAll_zero
        intro x hx
        refine ⟨hmem x hx, ?_⟩
        obtain ⟨y, hy, hx⟩ := List.mem_flatMap.mp hx
        obtain ⟨coin, hcoin, rfl⟩ := List.mem_map.mp hx
        rw [h.received_value hy hcoin, hzero]
        exact UInt32.toNat_inj.mp (by rw [valueIn_toNat]; exact Nat.zero_div _)
      rw [applyTransfer, hdebits, hcredits]

/-! ### The transfers begun -/

/-- The balances are the minted ones with every transfer begun applied. -/
def Applied (p : Parameters) (s : State) : Prop :=
  s.expectedFinalValues = s.begun.foldl applyTransfer p.mint.expectedFinalValues

theorem Inv.recorded_eq (hi : Inv p s) :
    s.recorded = s.transfers.foldl applyTransfer p.mint.expectedFinalValues := by
  rw [State.recorded, mintWallets_of_coins hi.coins]

theorem mint_present (p : Parameters) (ts : List BenchmarkTransfer) :
    ∀ w, ∀ c ∈ p.coinIds w, (w, c) ∈ ts.foldl applyTransfer p.mint.expectedFinalValues := by
  intro w c hc
  apply mem_foldl_applyTransfer
  rw [Std.ExtTreeMap.mem_iff_isSome_getElem?, p.mint_expected, if_pos hc]
  rfl

theorem Applied.findCoin (h : Applied p s) (hi : Inv p s) (id : WalletId) :
    (findCoin p.transferValuePerWallet id (s.wallets.getD id []) s.expectedFinalValues).2 =
      s.expectedFinalValues := by
  apply findCoin_present
  intro coin hcoin
  rw [hi.coins, Parameters.mem_coins] at hcoin
  rw [h]
  exact mint_present p s.begun id coin.1 hcoin.1

theorem applyTransfer_sender (e : Balances) (id : WalletId) (c : CoinId) (v : CoinValue)
    (ht : t.receivers = []) :
    applyTransfer e {t with senders := t.senders ++ [(id, [(c, v)])]} =
      (applyTransfer e t).subAssign (id, c) v := by
  simp [applyTransfer, ht, items, withdrawAll, depositAll]

theorem applyTransfer_receiver (e : Balances) (id : WalletId) (pairs : CoinList) :
    applyTransfer e {t with receivers := t.receivers ++ [(id, pairs)]} =
      creditPairs id pairs (applyTransfer e t) := by
  simp [applyTransfer, items, depositAll, creditPairs, List.foldl_map]

/-- What has been built of the transfer changes nothing. -/
def State.Harmless (p : Parameters) (s : State) : Prop :=
  s.transfer.senders = [] ∨
    (p.transferValuePerWallet = 0 ∧ ∀ x ∈ items s.transfer.receivers, x.1 ∈ s.recorded)

theorem Inv.harmless_iff (hi : Inv p s) : applyTransfer s.recorded s.transfer = s.recorded ↔ s.Harmless p := by
  refine hi.wellFormed.applyTransfer_eq_self_iff ?_
  rw [hi.recorded_eq]
  exact mint_present p s.transfers

/-- A step keeps the balances those of the transfers begun, if it drops no transfer
that has changed them. -/
theorem Applied.step {stale : Bool} (h : Applied p s) (hi : Inv p s) (hs : s' ∈ next p stale s)
    (hsafe : s.Abandons stale → s.Harmless p) : Applied p s' := by
  unfold Applied at h ⊢
  cases effect_of_next hi hs with
  | quiet hq hb _ =>
    rw [hq.expected, h]
    rcases hb with hb | hb
    · rw [hb]
    · rw [hb, List.foldl_append]
      rfl
  | abandon hq ha hb =>
    have hbegun : s.begun = s.transfers ++ [s.transfer] := by
      obtain ⟨⟨id, _, hc⟩, _⟩ := ha
      rcases hc with hc | hc <;> simp [State.begun, State.current, hc]
    have hdropped : s'.begun = s.transfers := List.append_cancel_right (hb.symm.trans hbegun)
    rw [hq.expected, h, hbegun, hdropped, List.foldl_append, ← hi.recorded_eq]
    exact hi.harmless_iff.mpr (hsafe ha)
  | sender node c e hc hp hf hb he _ =>
    have hsame := Applied.findCoin h hi node.wallet
    rw [hf] at hsame
    have hprogress := hi.progress
    rw [hc] at hprogress
    rw [he, hb, List.foldl_append]
    show _ = applyTransfer _ {s.transfer with
      senders := s.transfer.senders ++ [(node.wallet, [(c, p.transferValuePerWallet)])]}
    rw [applyTransfer_sender _ _ _ _ hprogress.1]
    rw [hp.begun, List.foldl_append] at h
    rw [show e = s.expectedFinalValues from hsame, h]
    rfl
  | receiver node _ hp hb he _ =>
    rw [he, hb, List.foldl_append]
    show _ = applyTransfer _ {s.transfer with
      receivers := s.transfer.receivers ++ [(node.wallet, recvPairs p s.transfer.senders)]}
    rw [applyTransfer_receiver, h, hp.begun, List.foldl_append]
    rfl
  | short id e _ _ hf hb _ he _ =>
    have hsame := Applied.findCoin h hi id
    rw [hf] at hsame
    rw [he, hb, ← h]
    exact hsame

/-! ### Giving up -/

/-- A step of `generate` in which a comparison with an erased node gives what it
may, and in which no transfer is given up that has changed a balance. -/
def SafeStep (p : Parameters) (s s' : State) : Prop :=
  ∃ stale, s' ∈ next p stale s ∧ (s.Abandons stale → s.Harmless p)

theorem applied_of_safe {order : Shuffled p}
    (h : Relation.ReflTransGen (SafeStep p) (start p order) s) : Inv p s ∧ Applied p s := by
  refine Transition.Preserved.run (I := fun s => Inv p s ∧ Applied p s) (fun a b ha hab => ?_) h
    ⟨inv_start p order, rfl⟩
  obtain ⟨stale, hn, hsafe⟩ := hab
  exact ⟨ha.1.step hn, ha.2.step ha.1 hn hsafe⟩

/-- Node identity tells every erased node from the live ones, so that a run in it
gives up nothing. -/
theorem Reached.safe {order : Shuffled p} (h : Reached p order s) :
    Relation.ReflTransGen (SafeStep p) (start p order) s := by
  unfold Reached at h
  induction h with
  | refl => exact .refl
  | tail hr hn ih => exact ih.tail ⟨false, hn, fun ha => absurd ha (Inv.reached hr).not_abandons⟩

/-- A run of `generate` in which a comparison with an erased node gives what it may,
and the states in which a search gave up, in order. -/
inductive Runs (p : Parameters) (order : Shuffled p) : List State → State → Prop where
  | init : Runs p order [] (start p order)
  | goOn {given : List State} {s s' : State} (stale : Bool) : Runs p order given s →
      s' ∈ next p stale s → ¬ s.Abandons stale → Runs p order given s'
  | giveUp {given : List State} {s s' : State} (stale : Bool) : Runs p order given s →
      s' ∈ next p stale s → s.Abandons stale → Runs p order (given ++ [s]) s'

section Runs
variable {order : Shuffled p} {given : List State}

/-- Every run is one of these. -/
theorem exists_runs (h : Relation.ReflTransGen (fun s s' => ∃ stale, s' ∈ next p stale s) (start p order) s) :
    ∃ given, Runs p order given s := by
  induction h with
  | refl => exact ⟨[], .init⟩
  | @tail a b _ hn ih =>
    obtain ⟨given, hruns⟩ := ih
    obtain ⟨stale, hn⟩ := hn
    by_cases ha : a.Abandons stale
    · exact ⟨given ++ [a], .giveUp stale hruns hn ha⟩
    · exact ⟨given, .goOn stale hruns hn ha⟩

theorem Runs.inv (h : Runs p order given s) : Inv p s := by
  induction h with
  | init => exact inv_start p order
  | goOn _ _ hn _ ih => exact ih.step hn
  | giveUp _ _ hn _ ih => exact ih.step hn

theorem Runs.inv_given (h : Runs p order given s) : ∀ g ∈ given, Inv p g := by
  induction h with
  | init => exact fun g hg => absurd hg List.not_mem_nil
  | goOn _ _ _ _ ih => exact ih
  | giveUp _ hr _ _ ih =>
    intro g hg
    rcases List.mem_append.mp hg with hg | hg
    · exact ih g hg
    · exact List.mem_singleton.mp hg ▸ hr.inv

/-- Steps that tell nodes apart go on without giving up. -/
theorem Runs.reaches (h : Runs p order given s) (hr : Reaches (next p false) s s') :
    Runs p order given s' := by
  induction hr with
  | refl => exact h
  | tail _ hn ih => exact .goOn false ih hn ih.inv.not_abandons

theorem Runs.safe (h : Runs p order given s) (hg : ∀ g ∈ given, g.Harmless p) :
    Relation.ReflTransGen (SafeStep p) (start p order) s := by
  induction h with
  | init => exact .refl
  | goOn stale _ hn ha ih => exact (ih hg).tail ⟨stale, hn, fun h => absurd h ha⟩
  | giveUp stale _ hn _ ih =>
    rw [List.forall_mem_append] at hg
    exact (ih hg.1).tail ⟨stale, hn, fun _ => hg.2 _ (List.mem_singleton_self _)⟩

end Runs

/-! ### What a transfer given up has debited

A coin of the wallet itself is debited only, and a debit is made only where the
coin covers it. So every debit is missing for good, also that of a transfer given
up, and of a non-zero amount it shows. -/

/-- What the senders of some transfers are debited on the account. -/
def debited (k : Account) (ts : List BenchmarkTransfer) : Nat :=
  total (entries (ts.flatMap BenchmarkTransfer.senders)) k

theorem debited_append (k : Account) (ts ts' : List BenchmarkTransfer) :
    debited k (ts ++ ts') = debited k ts + debited k ts' := by
  simp [debited, entries]

theorem debited_singleton (k : Account) (t : BenchmarkTransfer) :
    debited k [t] = total (entries t.senders) k := by
  simp [debited]

/-- The entry of one sender. -/
theorem total_sender (k : Account) (id : WalletId) (c : CoinId) (v : CoinValue)
    (l : List (WalletId × CoinList)) :
    total (entries (l ++ [(id, [(c, v)])])) k =
      total (entries l) k + if (id, c) = k then v.toNat else 0 := by
  simp [entries]

theorem withdrawAll_toNat {l : List (WalletId × CoinList)} {e : Balances} {k : Account}
    (h : total (entries l) k ≤ (e.val k).toNat) :
    ((withdrawAll (items l) e).val k).toNat + total (entries l) k = (e.val k).toNat := by
  rw [entries_eq] at h ⊢
  generalize items l = l at h ⊢
  induction l generalizing e with
  | nil => rfl
  | cons x l ih =>
    have hval := e.val_subAssign x.1 k x.2
    rw [List.map_cons, total_cons] at h ⊢
    show ((withdrawAll l (e.subAssign x.1 x.2)).val k).toNat + _ = _
    by_cases hk : x.1 = k
    · rw [if_pos hk] at h hval ⊢
      have hcover : x.2 ≤ e.val x.1 := by
        rw [UInt32.le_iff_toNat_le, hk]
        omega
      have hsub := UInt32.toNat_sub_of_le _ _ hcover
      rw [hk] at hsub hval
      rw [← hval] at hsub
      have hrest := ih (e := e.subAssign x.1 x.2) (by rw [hk]; omega)
      rw [hk] at hrest ⊢
      omega
    · rw [if_neg hk, Nat.zero_add] at h ⊢
      rw [if_neg hk] at hval
      have hrest := ih (e := e.subAssign x.1 x.2) (by rw [hval]; exact h)
      rw [hrest, hval]

/-- No receiver is credited a coin of its own. -/
theorem WellFormed.not_credited (h : WellFormed p t) (hcoins : p.coinCount < 2 ^ 64) {k : Account}
    (hk : k.2 ∈ p.coinIds k.1) : k ∉ (items t.receivers).map Prod.fst := by
  intro hm
  obtain ⟨x, hx, rfl⟩ := List.mem_map.mp hm
  obtain ⟨y, hy, hx⟩ := List.mem_flatMap.mp hx
  obtain ⟨coin, hcoin, rfl⟩ := List.mem_map.mp hx
  rw [h.receivers y hy] at hcoin
  obtain ⟨z, hz, hcoin⟩ := List.mem_flatMap.mp hcoin
  obtain ⟨pair, hpair, rfl⟩ := List.mem_map.mp hcoin
  obtain ⟨c, hc, hz2⟩ := h.senders z hz
  rw [hz2] at hpair
  obtain rfl := List.mem_singleton.mp hpair
  -- the coin belongs to the sender `z`, which is another wallet
  have hsame : z.1 = y.1 := p.mem_coinIds_unique hcoins hc hk
  have hdistinct := h.distinct
  rw [BenchmarkTransfer.wallets, List.nodup_append] at hdistinct
  exact hdistinct.2.2 z.1 (List.mem_map_of_mem hz) y.1 (List.mem_map_of_mem hy) hsame

theorem foldl_applyTransfer_toNat (hcoins : p.coinCount < 2 ^ 64) {ts : List BenchmarkTransfer}
    (hts : ∀ t ∈ ts, WellFormed p t) {k : Account} (hk : k.2 ∈ p.coinIds k.1) {e : Balances}
    (h : debited k ts ≤ (e.val k).toNat) :
    ((ts.foldl applyTransfer e).val k).toNat + debited k ts = (e.val k).toNat := by
  induction ts generalizing e with
  | nil => rfl
  | cons t ts ih =>
    have hcons : debited k (t :: ts) = total (entries t.senders) k + debited k ts := by
      rw [← debited_singleton, ← debited_append]
      rfl
    rw [hcons] at h ⊢
    have ht := hts t (List.mem_cons_self ..)
    have hval : ((applyTransfer e t).val k).toNat + total (entries t.senders) k = (e.val k).toNat := by
      rw [applyTransfer, depositAll_val (ht.not_credited hcoins hk)]
      exact withdrawAll_toNat (by omega)
    have hrest := ih (fun u hu => hts u (List.mem_cons_of_mem _ hu)) (e := applyTransfer e t) (by omega)
    rw [List.foldl_cons]
    omega

/-- The balance of a wallet's own coin is what the transfers begun and those given
up have left of it. -/
def Paid (p : Parameters) (given : List State) (s : State) : Prop :=
  ∀ k : Account, k.2 ∈ p.coinIds k.1 →
    (s.expectedFinalValues.val k).toNat + debited k (s.begun ++ given.map State.transfer) =
      p.coinInitialValue.toNat

section Paid
variable {given : List State}

theorem paid_start (p : Parameters) (order : Shuffled p) : Paid p [] (start p order) := by
  intro k hk
  show (p.mint.expectedFinalValues.val k).toNat + 0 = _
  rw [Balances.val_eq, show k = (k.1, k.2) from rfl, p.mint_expected, if_pos hk]
  rfl

theorem Paid.congr (h : Paid p given s) {given' : List State}
    (hb : ∀ k, debited k (s'.begun ++ given'.map State.transfer) =
      debited k (s.begun ++ given.map State.transfer))
    (he : ∀ k : Account, k.2 ∈ p.coinIds k.1 → s'.expectedFinalValues.val k = s.expectedFinalValues.val k) :
    Paid p given' s' := by
  intro k hk
  rw [he k hk, hb]
  exact h k hk

/-- A search that gives up leaves the balances as they are, and the transfer is not
among those begun any more. -/
theorem State.Abandons.dropped {stale : Bool} (ha : s.Abandons stale) (hs : s' ∈ next p stale s) :
    s'.expectedFinalValues = s.expectedFinalValues ∧ s.begun = s'.begun ++ [s.transfer] := by
  obtain ⟨⟨id, hid, hc⟩, list, hi, hstarted⟩ := ha
  rcases hc with hc | hc
  · simp only [next, hc, hid, if_true, Option.mem_def, Option.some.injEq] at hs
    rw [← hs, State.searchOn_increment hi, if_pos hstarted]
    exact ⟨rfl, by simp [State.begun, State.current, hc]⟩
  · simp only [next, hc, hid, if_true, Option.mem_def, Option.some.injEq] at hs
    rw [← hs, State.searchOn_increment hi, if_pos hstarted]
    exact ⟨rfl, by simp [State.begun, State.current, hc]⟩

theorem Paid.giveUp {stale : Bool} (h : Paid p given s) (hs : s' ∈ next p stale s)
    (ha : s.Abandons stale) : Paid p (given ++ [s]) s' := by
  obtain ⟨he, hb⟩ := ha.dropped hs
  refine h.congr (fun k => ?_) fun k _ => by rw [he]
  rw [hb, List.map_append, List.map_singleton]
  simp only [debited_append]
  omega

theorem Paid.step {stale : Bool} (h : Paid p given s) (hi : Inv p s) (hcoins : p.coinCount < 2 ^ 64)
    (hs : s' ∈ next p stale s) (hna : ¬ s.Abandons stale) : Paid p given s' := by
  cases effect_of_next hi hs with
  | quiet hq hb _ =>
    refine h.congr (fun k => ?_) fun k _ => by rw [hq.expected]
    rcases hb with hb | hb
    · rw [hb]
    · have hnone : debited k [⟨[], []⟩] = 0 := debited_singleton k _
      rw [hb]
      simp only [debited_append, hnone, Nat.add_zero]
  | abandon _ ha _ => exact absurd ha hna
  | sender node c e _ hp hf hb he _ =>
    have hval := findCoin_val p.transferValuePerWallet node.wallet
      (s.wallets.getD node.wallet []) s.expectedFinalValues
    rw [hf] at hval
    have hcover : p.transferValuePerWallet ≤ e.val (node.wallet, c) := (findCoin_some hf).2
    intro k hk
    have hbefore := h k hk
    simp only [hp.begun, hb, debited_append, debited_singleton, total_sender] at hbefore ⊢
    rw [he, Balances.val_subAssign]
    by_cases hkc : (node.wallet, c) = k
    · rw [if_pos hkc, if_pos hkc, UInt32.toNat_sub_of_le _ _ hcover, hval, hkc]
      have hle := UInt32.le_iff_toNat_le.mp hcover
      rw [hval, hkc] at hle
      omega
    · rw [if_neg hkc, if_neg hkc, hval]
      omega
  | receiver node hc hp hb he _ =>
    refine h.congr (fun k => ?_) fun k hk => ?_
    · rw [hb, hp.begun]
      simp only [debited_append, debited_singleton]
    · have hwf := hi.wellFormed.addReceiver
        (by rw [← (hi.building (by rw [hc]; rfl)).picked]; exact hp.fresh) (hp.wallet_lt hi)
      have hnot := hwf.not_credited hcoins hk
      rw [he, creditPairs_val]
      intro pair hpair hkey
      apply hnot
      have hitem : (k, pair.2) ∈ items [(node.wallet, recvPairs p s.transfer.senders)] :=
        List.mem_flatMap.mpr ⟨_, List.mem_singleton_self _, List.mem_map.mpr ⟨pair, hpair, by rw [hkey]⟩⟩
      refine List.mem_map.mpr ⟨(k, pair.2), ?_, rfl⟩
      rw [items, List.flatMap_append]
      exact List.mem_append.mpr (.inr hitem)
  | short id e _ _ hf hb _ he _ =>
    have hval := findCoin_val p.transferValuePerWallet id (s.wallets.getD id []) s.expectedFinalValues
    rw [hf] at hval
    exact h.congr (fun k => by rw [hb]) fun k _ => by rw [he, hval]

theorem Runs.paid {order : Shuffled p} (h : Runs p order given s) (hcoins : p.coinCount < 2 ^ 64) :
    Paid p given s := by
  induction h with
  | init => exact paid_start p order
  | goOn _ hr hn hna ih => exact ih.step hr.inv hcoins hn hna
  | giveUp _ _ hn ha ih => exact ih.giveUp hn ha

end Paid

theorem le_total {l : List (Account × Nat)} {k : Account} {v : Nat} (h : (k, v) ∈ l) : v ≤ total l k := by
  obtain ⟨a, b, rfl⟩ := List.append_of_mem h
  rw [total_append, total_cons, if_pos rfl]
  omega

/-- A transfer that debits nothing of a non-zero amount has no sender. -/
theorem WellFormed.no_sender (h : WellFormed p t) (hne : p.transferValuePerWallet ≠ 0)
    (hzero : ∀ k : Account, k.2 ∈ p.coinIds k.1 → debited k [t] = 0) : t.senders = [] := by
  by_contra hs
  obtain ⟨x, hx⟩ := List.exists_mem_of_ne_nil _ hs
  obtain ⟨c, hc, hx2⟩ := h.senders x hx
  have hentry : ((x.1, c), p.transferValuePerWallet.toNat) ∈ entries t.senders :=
    List.mem_flatMap.mpr ⟨x, hx, by rw [hx2]; exact List.mem_singleton_self _⟩
  have hle := le_total hentry
  rw [← debited_singleton, hzero (x.1, c) hc] at hle
  exact hne (UInt32.toNat_inj.mp (Nat.le_zero.mp hle))

/-- **Giving up leaves nothing behind as long as nothing has been moved**: if no
search of a run gives up a transfer that has changed a balance, the expected final
values at its return are those of the recorded transfers. Of a non-zero amount they
are those only then. -/
theorem given_up_consistent (p : Parameters) (order : Shuffled p) (given : List State) (s : State)
    (h : Runs p order given s) (hc : s.control = .returned) :
    ((∀ g ∈ given, g.Harmless p) → s.Consistent) ∧
    (p.numWallets.toNat * p.coinsPerWallet.toNat < 2 ^ 64 → p.transferValuePerWallet ≠ 0 →
      s.Consistent → ∀ g ∈ given, g.Harmless p) := by
  have hbegun : s.begun = s.transfers := by simp [State.begun, State.current, hc]
  constructor
  · intro hg
    obtain ⟨hi, ha⟩ := applied_of_safe (h.safe hg)
    rw [Applied, hbegun, ← hi.recorded_eq] at ha
    exact ha
  · intro hcoins hne hcons g hg
    refine .inl ((h.inv_given g hg).wellFormed.no_sender hne fun k hk => ?_)
    have hpaid := h.paid hcoins k hk
    rw [hbegun, debited_append, hcons, h.inv.recorded_eq] at hpaid
    have hminted := paid_start p order k hk
    have hstart : debited k ((start p order).begun ++ [].map State.transfer) = 0 := rfl
    rw [hstart, Nat.add_zero] at hminted
    have hrecorded := foldl_applyTransfer_toNat hcoins
      (fun t ht => (h.inv.recorded t ht).toWellFormed) hk
      (e := p.mint.expectedFinalValues) (by
        show _ ≤ ((start p order).expectedFinalValues.val k).toNat
        omega)
    have hsplit : debited k [g.transfer] ≤ debited k (given.map State.transfer) := by
      obtain ⟨a, b, rfl⟩ := List.append_of_mem hg
      rw [List.map_append, List.map_cons, ← List.singleton_append (l := b.map State.transfer)]
      simp only [debited_append]
      omega
    change ((start p order).expectedFinalValues.val k).toNat = _ at hminted
    change _ = ((start p order).expectedFinalValues.val k).toNat at hrecorded
    omega

/-! One wallet, in the list twice: the search for a second party finds only the
first, and takes the live node for the erased one. The transfer it gives up has
moved an amount of zero, or has no sender. -/

theorem runs_once {order : Shuffled p} {g : State} (hr : Reached p order g) (ha : g.Abandons true)
    (hn : (next p true g).isSome = true) (n : Nat) :
    Runs p order [g] (Transition.run (next p false) n (Transition.run (next p true) 1 g)) :=
  (Runs.giveUp true (Runs.init.reaches hr) (Transition.run_one hn) ha).reaches
    (Transition.reaches_run _ n _)

def zeroWallet : Parameters := {lonelyWallet with transferValue := 0}

def zeroOrder : Shuffled zeroWallet := ⟨[0, 0], by decide⟩

/-- The search for a receiver, gone all around. -/
def zeroSearch : State := Transition.run (next zeroWallet false) 6 (start zeroWallet zeroOrder)

def zeroEnd : State :=
  Transition.run (next zeroWallet false) 1 (Transition.run (next zeroWallet true) 1 zeroSearch)

def unsentWallet : Parameters := {lonelyWallet with sendersPerTransfer := 0, receiversPerTransfer := 2}

def unsentOrder : Shuffled unsentWallet := ⟨[0, 0], by decide⟩

/-- The search for the second receiver, gone all around. -/
def unsentSearch : State := Transition.run (next unsentWallet false) 5 (start unsentWallet unsentOrder)

def unsentEnd : State :=
  Transition.run (next unsentWallet false) 1 (Transition.run (next unsentWallet true) 1 unsentSearch)

theorem zeroEnd_runs : Runs zeroWallet zeroOrder [zeroSearch] zeroEnd :=
  runs_once (Transition.reaches_run _ 6 _) ⟨⟨0, by decide, .inr (by decide)⟩, _, by rfl, by decide⟩
    (by decide) 1

theorem unsentEnd_runs : Runs unsentWallet unsentOrder [unsentSearch] unsentEnd :=
  runs_once (Transition.reaches_run _ 5 _) ⟨⟨0, by decide, .inr (by decide)⟩, _, by rfl, by decide⟩
    (by decide) 1

theorem zeroEnd_given_up :
    Runs zeroWallet zeroOrder [zeroSearch] zeroEnd ∧ zeroSearch.transfer.senders = [(0, [(0, 0)])] ∧
      zeroEnd.Consistent ∧
      Runs unsentWallet unsentOrder [unsentSearch] unsentEnd ∧
      unsentWallet.transferValuePerWallet = 20 ∧ unsentEnd.Consistent ∧
      unsentSearch.Harmless unsentWallet := by
  have hzero : zeroSearch.Harmless zeroWallet := .inr ⟨by decide, fun x hx => absurd hx (by
    rw [show items zeroSearch.transfer.receivers = [] by decide]
    exact List.not_mem_nil)⟩
  have hunsent : unsentSearch.transfer.senders = [] := by decide
  have hends := given_up_consistent unsentWallet unsentOrder _ _ unsentEnd_runs (by decide)
  have hconsistent : unsentEnd.Consistent := hends.1 fun g hg => by
    rw [List.mem_singleton.mp hg]
    exact .inl hunsent
  refine ⟨zeroEnd_runs, by decide, ?_, unsentEnd_runs, by decide, hconsistent, ?_⟩
  · refine (given_up_consistent zeroWallet zeroOrder _ _ zeroEnd_runs (by decide)).1 fun g hg => ?_
    rw [List.mem_singleton.mp hg]
    exact hzero
  · exact hends.2 (by decide) (by decide) hconsistent unsentSearch (List.mem_singleton_self _)

/-! A search for a receiver that finds only the sender, and takes the live node for
the erased one: the sender stays debited. -/

def lonelyEnd : State := Transition.run (next lonelyWallet true) 10 (start lonelyWallet lonelyOrder)

theorem lonelyEnd_not_consistent :
    Relation.ReflTransGen (fun s s' => ∃ stale, s' ∈ next lonelyWallet stale s)
        (start lonelyWallet lonelyOrder) lonelyEnd ∧
      lonelyEnd.control = .returned ∧ lonelyEnd.transfers = [] ∧
      lonelyEnd.expectedFinalValues.val (0, 0) = 99990 ∧ lonelyEnd.recorded.val (0, 0) = 100000 ∧
      ¬ lonelyEnd.Consistent := by
  have hexpected : lonelyEnd.expectedFinalValues.val (0, 0) = 99990 := by decide
  have hrecorded : lonelyEnd.recorded.val (0, 0) = 100000 := by decide
  refine ⟨?_, by decide, by decide, hexpected, hrecorded, fun h => ?_⟩
  · exact Relation.ReflTransGen.mono (fun _ _ hn => ⟨true, hn⟩) _ _
      (Transition.reaches_run (next lonelyWallet true) 10 _)
  · rw [h, hrecorded] at hexpected
    exact absurd hexpected (by decide)

/-! ### The funds error -/

/-- Some coin covers an amount of zero, where any wallet has one. -/
theorem amount_pos_of_short (hi : Inv p s) {id : WalletId} {e : Balances}
    (hc : s.control = .senderSearch id)
    (hf : findCoin p.transferValuePerWallet id (s.wallets.getD id []) s.expectedFinalValues = (none, e))
    (hne : s.transfer.senders ≠ []) : p.transferValuePerWallet ≠ 0 := by
  intro hzero
  obtain ⟨x, hx⟩ := List.exists_mem_of_ne_nil _ hne
  obtain ⟨c, hcoin, _⟩ := hi.wellFormed.senders x hx
  have hlen := p.coinIds_length (p.coinIds_wallet hcoin)
  obtain ⟨node, _, hm, rfl⟩ := hi.target (.inl hc)
  have hcount := p.coinIds_length (hi.entries node hm)
  obtain ⟨c', hc'⟩ : ∃ c', c' ∈ p.coinIds node.wallet := by
    apply List.exists_mem_of_length_pos
    rw [hcount, ← hlen]
    exact List.length_pos_of_mem hcoin
  have hnone := not_covers_of_findCoin (hi.coins _) hf hc'
  rw [hzero] at hnone
  exact hnone UInt32.zero_le

/-- **The funds error leaves the balances of the recorded transfers exactly when the
transfer it ends had no sender yet.** -/
theorem funds_error_consistent_iff (p : Parameters) (order : Shuffled p) (s s' : State)
    (h : Reached p order s) (hs : s' ∈ next p false s) (hc : s'.control = .notEnoughFunds) :
    s'.Consistent ↔ s.transfer.senders = [] := by
  obtain ⟨hi, ha⟩ := applied_of_safe h.safe
  have hi' := hi.step hs
  have ha' := ha.step hi hs fun hab => absurd hab hi.not_abandons
  have hbegun' : s'.begun = s'.transfers ++ [s'.transfer] := by simp [State.begun, State.current, hc]
  rw [Applied, hbegun', List.foldl_append, ← hi'.recorded_eq] at ha'
  have hiff : s'.Consistent ↔ s'.Harmless p := by
    rw [← hi'.harmless_iff, State.Consistent, ha']
    rfl
  rw [hiff]
  cases effect_of_next hi hs with
  | quiet hq _ _ => exact absurd hc hq.going
  | abandon hq _ _ => exact absurd hc hq.going
  | sender _ _ _ _ _ _ _ _ hc' => rw [hc] at hc'; cases hc'
  | receiver _ _ _ _ _ hc' => rw [hc] at hc'; cases hc'
  | short id e hcs _ hf hb _ _ _ =>
    have hbegun : s.begun = s.transfers ++ [s.transfer] := by simp [State.begun, State.current, hcs]
    have htransfer : s'.transfer = s.transfer := by
      have hlast := hbegun'.symm.trans (hb.trans hbegun)
      exact (List.cons.inj (List.append_inj_right' hlast rfl)).1
    unfold State.Harmless
    rw [htransfer]
    constructor
    · intro hcase
      by_contra hne
      rcases hcase with hnil | ⟨hzero, _⟩
      · exact hne hnil
      · exact amount_pos_of_short hi hcs hf hne hzero
    · exact .inl

/-! Coins that cover one sending each, two senders to a transfer: in the second
transfer wallet 2 has been debited when wallet 0 turns out to have sent before. -/

def fundsShort : Parameters :=
  { numWallets := 3, transfersPerWallet := 2, sendersPerTransfer := 2, coinInitialValue := 10 }

def fundsOrder : Shuffled fundsShort := ⟨[0, 1, 2, 2, 0, 1], by decide⟩

/-- The search that has found wallet 0. -/
def fundsSearch : State := Transition.run (next fundsShort false) 13 (start fundsShort fundsOrder)

def fundsEnd : State := Transition.run (next fundsShort false) 1 fundsSearch

theorem fundsSearch_consistent_iff : fundsEnd.Consistent ↔ fundsSearch.transfer.senders = [] :=
  funds_error_consistent_iff fundsShort fundsOrder fundsSearch fundsEnd (Transition.reaches_run _ 13 _)
    (Transition.run_one (by decide)) (by decide)

theorem fundsEnd_not_consistent :
    Reached fundsShort fundsOrder fundsEnd ∧ fundsEnd.control = .notEnoughFunds ∧
      fundsEnd.transfers = [⟨[(0, [(0, 10)]), (1, [(1, 10)])], [(2, [(0, 10), (1, 10)])]⟩] ∧
      fundsEnd.expectedFinalValues.val (2, 2) = 0 ∧ fundsEnd.recorded.val (2, 2) = 10 ∧
      ¬ fundsEnd.Consistent := by
  have hexpected : fundsEnd.expectedFinalValues.val (2, 2) = 0 := by decide
  have hrecorded : fundsEnd.recorded.val (2, 2) = 10 := by decide
  refine ⟨?_, by decide, by decide, hexpected, hrecorded, fun h => ?_⟩
  · exact Relation.ReflTransGen.trans (Transition.reaches_run _ 13 _) (Transition.reaches_run _ 1 _)
  · rw [h, hrecorded] at hexpected
    exact absurd hexpected (by decide)

end CascadePlayground.Cbdc
