import CascadePlayground.Cbdc.Invariant
import CascadePlayground.OrderedMap
import CascadePlayground.Text.Stream

/-! The workload file.

`to_file` writes the parameters, the coins, the transfers and the expected final
values one number after the other, and `from_file` reads them back. Only two
counts are in the header, those of the transfers and of the expected final
values. The reader takes the other lengths from the parameters, where the writer
takes them from the containers. So a workload can be read back when it is
`Regular`: as many coins, senders and receivers as its parameters say
(`reads_fromFile`). Those that `generate` returns are (`regular_of_returns`).

The counts and the ids are natural numbers here, as in the containers they come
from; the types with a width are checked when they are read. -/
namespace CascadePlayground.Cbdc
open Text OrderedMap

/-! ### `to_file` -/

/-- Numbers with blanks between them, and `std::endl`. -/
def line : List Nat → List Char
  | [] => ['\n']
  | [n] => decimal n ++ ['\n']
  | n :: ns => decimal n ++ ' ' :: line ns

/-- `<< n << " "` -/
def spaced (n : Nat) : List Char := decimal n ++ [' ']

/-- A `send_pair` or a `recv_pair`. -/
def pairText (x : WalletId × CoinList) : List Char :=
  spaced x.1 ++ spaced x.2.length ++ x.2.flatMap fun coin => spaced coin.1 ++ spaced coin.2.toNat

def transferText (t : BenchmarkTransfer) : List Char :=
  t.senders.flatMap pairText ++ t.receivers.flatMap pairText ++ ['\n']

namespace CBDCBenchmarkWorkload

/-- The numbers of the first line. -/
def header (w : CBDCBenchmarkWorkload) : List Nat :=
  [w.numWallets.toNat, w.coinsPerWallet.toNat, w.transfersPerWallet.toNat,
    w.sendersPerTransfer.toNat, w.receiversPerTransfer.toNat, w.coinInitialValue.toNat,
    w.transferValue.toNat, w.randomSeed.toNat, w.transfers.length, w.expectedFinalValues.size]

/-- What `to_file` writes for a workload that has been generated. -/
def toFile (w : CBDCBenchmarkWorkload) : List Char :=
  line w.header ++
    ((w.wallets.toList.flatMap fun item => item.2.flatMap fun coin => line [item.1, coin.1, coin.2.toNat]) ++
      (w.transfers.flatMap transferText ++
        w.expectedFinalValues.toList.flatMap fun item => line [item.1.1, item.1.2, item.2.toNat]))

end CBDCBenchmarkWorkload

/-! ### `from_file` -/

/-- Reading an unsigned 64-bit variable. -/
def asUInt64 (n : Nat) : UInt64 × Bool := if n < 2 ^ 64 then (.ofNat n, true) else (.ofNat (2 ^ 64 - 1), false)

/-- Reading an unsigned 32-bit variable. -/
def asUInt32 (n : Nat) : UInt32 × Bool := if n < 2 ^ 32 then (.ofNat n, true) else (.ofNat (2 ^ 32 - 1), false)

/-- Reading an id or a count. -/
def asNat (n : Nat) : Nat × Bool := (n, true)

section Readers
variable (u64 : Reader UInt64) (u32 : Reader UInt32) (number : Reader Nat)

/-- One turn of the loop that fills `benchmark->wallets`. -/
def readCoin (wallets : Wallets) : Reader Wallets := do
  let wid ← number
  let cid ← number
  let cv ← u32
  pure (push wallets (wid, (cid, cv)))

def readCoinPair (coinList : CoinList) : Reader CoinList := do
  let cid ← number
  let cv ← u32
  pure (coinList ++ [(cid, cv)])

/-- One turn of the loops that fill the senders and the receivers of a transfer. -/
def readPair (pairs : List (WalletId × CoinList)) : Reader (List (WalletId × CoinList)) := do
  let id ← number
  let coinCount ← number
  let coinList ← times (readCoinPair u32 number) coinCount []
  pure (pairs ++ [(id, coinList)])

def readTransfer (senders receivers : UInt64) (transfers : List BenchmarkTransfer) :
    Reader (List BenchmarkTransfer) := do
  let s ← times (readPair u32 number) senders.toNat []
  let r ← times (readPair u32 number) receivers.toNat []
  pure (transfers ++ [⟨s, r⟩])

/-- One turn of the loop that fills `benchmark->expected_final_values`. -/
def readBalance (e : Balances) : Reader Balances := do
  let wid ← number
  let cid ← number
  let cv ← u32
  pure (e.insert (wid, cid) cv)

/-- `from_file`, where `number` reads the ids and the counts. -/
def fromFileWith : Reader CBDCBenchmarkWorkload := do
  let numWallets ← u64
  let coinsPerWallet ← u64
  let transfersPerWallet ← u64
  let sendersPerTransfer ← u64
  let receiversPerTransfer ← u64
  let coinInitialValue ← u32
  let transferValue ← u32
  let randomSeed ← u64
  let transferCount ← number
  let expectedCount ← number
  let wallets ← times (times (readCoin u32 number) coinsPerWallet.toNat) numWallets.toNat ∅
  let transfers ← times (readTransfer u32 number sendersPerTransfer receiversPerTransfer) transferCount []
  let expectedFinalValues ← times (readBalance u32 number) expectedCount ∅
  pure {
    numWallets, coinsPerWallet, transfersPerWallet, sendersPerTransfer, receiversPerTransfer
    coinInitialValue, transferValue, randomSeed
    generated := true
    wallets, transfers, expectedFinalValues }

end Readers

/-- `from_file` on a text of decimal numbers. -/
def fromFile : Reader CBDCBenchmarkWorkload :=
  fromFileWith (extract asUInt64) (extract asUInt32) (extract asNat)

/-- The stream that `from_file` opens on a file with this text. -/
def opened (text : List Char) (unassigned : Nat → Nat) : InStream := ⟨text, false, 0, unassigned⟩

/-! ### The numbers of a file -/

def coinNumbers (x : WalletId × (CoinId × CoinValue)) : List Nat := [x.1, x.2.1, x.2.2.toNat]

def coinPairNumbers (coin : CoinId × CoinValue) : List Nat := [coin.1, coin.2.toNat]

def pairNumbers (x : WalletId × CoinList) : List Nat :=
  x.1 :: x.2.length :: x.2.flatMap coinPairNumbers

def transferNumbers (t : BenchmarkTransfer) : List Nat :=
  t.senders.flatMap pairNumbers ++ t.receivers.flatMap pairNumbers

def balanceNumbers (item : (WalletId × CoinId) × CoinValue) : List Nat :=
  [item.1.1, item.1.2, item.2.toNat]

def CBDCBenchmarkWorkload.numbers (w : CBDCBenchmarkWorkload) : List Nat :=
  w.header ++ ((items w.wallets.toList).flatMap coinNumbers ++
    (w.transfers.flatMap transferNumbers ++ w.expectedFinalValues.toList.flatMap balanceNumbers))

theorem spells_line (ns : List Nat) : Spells (line ns) ns := by
  induction ns with
  | nil => exact .blank rfl .nil
  | cons n ns ih =>
    cases ns with
    | nil => exact .number n rfl .nil
    | cons m ns => exact .number n rfl ih

theorem spells_spaced (n : Nat) : Spells (spaced n) [n] := .number n rfl .nil

theorem spells_pairText (x : WalletId × CoinList) : Spells (pairText x) (pairNumbers x) := by
  have hcoins : Spells (x.2.flatMap fun coin => spaced coin.1 ++ spaced coin.2.toNat)
      (x.2.flatMap coinPairNumbers) :=
    .flatMap fun coin _ => (spells_spaced coin.1).append (spells_spaced coin.2.toNat)
  exact ((spells_spaced x.1).append (spells_spaced x.2.length)).append hcoins

theorem spells_transferText (t : BenchmarkTransfer) : Spells (transferText t) (transferNumbers t) := by
  have hpairs : Spells (t.senders.flatMap pairText ++ t.receivers.flatMap pairText) (transferNumbers t) :=
    (Spells.flatMap fun x _ => spells_pairText x).append (.flatMap fun x _ => spells_pairText x)
  have hend := hpairs.append (.blank (c := '\n') rfl .nil)
  rw [List.append_nil] at hend
  exact hend

/-- `to_file` writes these numbers, in this order. -/
theorem spells_toFile (w : CBDCBenchmarkWorkload) : Spells w.toFile w.numbers := by
  refine (spells_line w.header).append (.append ?_ (.append ?_ ?_))
  · rw [items, List.flatMap_assoc]
    refine .flatMap fun item _ => ?_
    rw [List.flatMap_map]
    exact .flatMap fun coin _ => spells_line _
  · exact .flatMap fun t _ => spells_transferText t
  · exact .flatMap fun item _ => spells_line _

/-! ### What the reader makes of them -/

theorem asUInt64_toNat (v : UInt64) : asUInt64 v.toNat = (v, true) := by
  rw [asUInt64, if_pos v.toNat_lt, UInt64.ofNat_toNat]

theorem asUInt32_toNat (v : UInt32) : asUInt32 v.toNat = (v, true) := by
  rw [asUInt32, if_pos v.toNat_lt, UInt32.ofNat_toNat]

/-- The containers have the sizes that the parameters say. -/
structure Regular (w : CBDCBenchmarkWorkload) : Prop where
  coins : (items w.wallets.toList).length = w.numWallets.toNat * w.coinsPerWallet.toNat
  /-- The entry of a wallet without coins is not written. -/
  wallets : ∀ item ∈ w.wallets.toList, item.2 ≠ []
  senders : ∀ t ∈ w.transfers, t.senders.length = w.sendersPerTransfer.toNat
  receivers : ∀ t ∈ w.transfers, t.receivers.length = w.receiversPerTransfer.toNat

section Reads
variable {P : Nat → Prop} {number : Reader Nat} (hnumber : ∀ n, P n → Reads number [n] n)
include hnumber

theorem reads_readCoin (ws : Wallets) {x : WalletId × (CoinId × CoinValue)} (h : ∀ n ∈ coinNumbers x, P n) :
    Reads (readCoin (extract asUInt32) number ws) (coinNumbers x) (push ws x) := by
  obtain ⟨hw, h⟩ := List.forall_mem_cons.mp h
  obtain ⟨hc, -⟩ := List.forall_mem_cons.mp h
  exact .cons_bind (hnumber _ hw) (.cons_bind (hnumber _ hc) (.extract_bind (asUInt32_toNat _) (.pure _)))

theorem reads_readCoinPair (l : CoinList) {coin : CoinId × CoinValue}
    (h : ∀ n ∈ coinPairNumbers coin, P n) :
    Reads (readCoinPair (extract asUInt32) number l) (coinPairNumbers coin) (l ++ [coin]) :=
  .cons_bind (hnumber _ (List.forall_mem_cons.mp h).1) (.extract_bind (asUInt32_toNat _) (.pure _))

theorem reads_readPair (l : List (WalletId × CoinList)) {x : WalletId × CoinList}
    (h : ∀ n ∈ pairNumbers x, P n) :
    Reads (readPair (extract asUInt32) number l) (pairNumbers x) (l ++ [x]) := by
  obtain ⟨hid, h⟩ := List.forall_mem_cons.mp h
  obtain ⟨hcount, h⟩ := List.forall_mem_cons.mp h
  have hcoins := Reads.times_list x.2 fun l coin hcoin =>
    reads_readCoinPair hnumber l (List.forall_mem_flatMap.mp h coin hcoin)
  exact .cons_bind (hnumber _ hid) (.cons_bind (hnumber _ hcount) hcoins.bind_pure)

theorem reads_pairs {l : List (WalletId × CoinList)} {n : UInt64} (hn : l.length = n.toNat)
    (h : ∀ n ∈ l.flatMap pairNumbers, P n) :
    Reads (times (readPair (extract asUInt32) number) n.toNat []) (l.flatMap pairNumbers) l := by
  have hpairs := Reads.times_list l fun l x hx =>
    reads_readPair hnumber l (List.forall_mem_flatMap.mp h x hx)
  rw [hn] at hpairs
  exact hpairs

theorem reads_readTransfer {senders receivers : UInt64} (l : List BenchmarkTransfer)
    {t : BenchmarkTransfer} (hs : t.senders.length = senders.toNat)
    (hr : t.receivers.length = receivers.toNat) (h : ∀ n ∈ transferNumbers t, P n) :
    Reads (readTransfer (extract asUInt32) number senders receivers l) (transferNumbers t) (l ++ [t]) := by
  obtain ⟨hsenders, hreceivers⟩ := List.forall_mem_append.mp h
  exact (reads_pairs hnumber hs hsenders).bind (reads_pairs hnumber hr hreceivers).bind_pure

theorem reads_readBalance (e : Balances) {item : (WalletId × CoinId) × CoinValue}
    (h : ∀ n ∈ balanceNumbers item, P n) :
    Reads (readBalance (extract asUInt32) number e) (balanceNumbers item) (e.insert item.1 item.2) := by
  obtain ⟨hw, h⟩ := List.forall_mem_cons.mp h
  obtain ⟨hc, -⟩ := List.forall_mem_cons.mp h
  exact .cons_bind (hnumber _ hw) (.cons_bind (hnumber _ hc) (.extract_bind (asUInt32_toNat _) (.pure _)))

theorem reads_wallets {w : CBDCBenchmarkWorkload} (h : Regular w)
    (hfit : ∀ n ∈ (items w.wallets.toList).flatMap coinNumbers, P n) :
    Reads (times (times (readCoin (extract asUInt32) number) w.coinsPerWallet.toNat) w.numWallets.toNat ∅)
      ((items w.wallets.toList).flatMap coinNumbers) w.wallets := by
  have hcoins := Reads.times (items w.wallets.toList)
    (fun ws x hx => reads_readCoin hnumber ws (List.forall_mem_flatMap.mp hfit x hx)) ∅
  have hpush : (items w.wallets.toList).foldl push ∅ = w.wallets := foldl_push_toList w.wallets h.wallets
  rw [h.coins, hpush] at hcoins
  rw [times_times]
  exact hcoins

theorem reads_transfers {w : CBDCBenchmarkWorkload} (h : Regular w)
    (hfit : ∀ n ∈ w.transfers.flatMap transferNumbers, P n) :
    Reads (times (readTransfer (extract asUInt32) number w.sendersPerTransfer w.receiversPerTransfer)
      w.transfers.length []) (w.transfers.flatMap transferNumbers) w.transfers :=
  .times_list w.transfers fun l t ht => reads_readTransfer hnumber l (h.senders t ht) (h.receivers t ht)
    (List.forall_mem_flatMap.mp hfit t ht)

theorem reads_balances {e : Balances} (hfit : ∀ n ∈ e.toList.flatMap balanceNumbers, P n) :
    Reads (times (readBalance (extract asUInt32) number) e.size ∅) (e.toList.flatMap balanceNumbers) e := by
  have hitems := Reads.times e.toList
    (fun e item hitem => reads_readBalance hnumber e (List.forall_mem_flatMap.mp hfit item hitem)) ∅
  have hinsert : e.toList.foldl (fun e item => e.insert item.1 item.2) ∅ = e := foldl_insert_toList e
  rw [hinsert, Std.ExtTreeMap.length_toList] at hitems
  exact hitems

/-- A regular workload is read back from its numbers, where ids and counts like these can be. -/
theorem reads_fromFileWith {w : CBDCBenchmarkWorkload} (h : Regular w) (hg : w.generated = true)
    (hfit : ∀ n ∈ w.numbers, P n) :
    Reads (fromFileWith (extract asUInt64) (extract asUInt32) number) w.numbers w := by
  have hw : ({w with generated := true} : CBDCBenchmarkWorkload) = w := by rw [← hg]
  obtain ⟨hheader, hfit⟩ := List.forall_mem_append.mp hfit
  obtain ⟨hcoins, hfit⟩ := List.forall_mem_append.mp hfit
  obtain ⟨htransfers, hbalances⟩ := List.forall_mem_append.mp hfit
  have hcount : P w.transfers.length := hheader _ (by simp [CBDCBenchmarkWorkload.header])
  have hentries : P w.expectedFinalValues.size := hheader _ (by simp [CBDCBenchmarkWorkload.header])
  rw [← hw]
  refine .extract_bind (asUInt64_toNat _) (.extract_bind (asUInt64_toNat _) ?_)
  refine .extract_bind (asUInt64_toNat _) (.extract_bind (asUInt64_toNat _) ?_)
  refine .extract_bind (asUInt64_toNat _) (.extract_bind (asUInt32_toNat _) ?_)
  refine .extract_bind (asUInt32_toNat _) (.extract_bind (asUInt64_toNat _) ?_)
  refine .cons_bind (hnumber _ hcount) (.cons_bind (hnumber _ hentries) ?_)
  exact (reads_wallets hnumber h hcoins).bind
    ((reads_transfers hnumber h htransfers).bind (reads_balances hnumber hbalances).bind_pure)

end Reads

theorem reads_fromFile {w : CBDCBenchmarkWorkload} (h : Regular w) (hg : w.generated = true) :
    Reads fromFile w.numbers w :=
  reads_fromFileWith (P := fun _ => True) (fun _ _ => .extract rfl) h hg fun _ _ => trivial

/-! ### Generated workloads -/

/-- The minted wallets, in order or not. -/
theorem mint_toList (p : Parameters) (hC : p.coinsPerWallet.toNat ≠ 0) :
    p.mint.wallets.toList.Perm ((List.range p.numWallets.toNat).map fun w => (w, p.coins w)) := by
  have hnodup : ((List.range p.numWallets.toNat).map fun w => (w, p.coins w)).Nodup :=
    List.nodup_range.map fun w w' h => congrArg Prod.fst h
  apply (List.perm_ext_iff_of_nodup (nodup_toList _) hnodup).mpr
  intro item
  obtain ⟨w, l⟩ := item
  rw [p.mem_mint_toList, List.mem_map]
  constructor
  · intro h
    obtain ⟨c, hc⟩ := List.exists_mem_of_ne_nil _ h.1
    exact ⟨w, List.mem_range.mpr (p.coinIds_wallet hc), Prod.ext rfl h.2.symm⟩
  · intro h
    obtain ⟨w', hw', he⟩ := h
    obtain ⟨rfl, rfl⟩ := Prod.mk.inj he
    refine ⟨fun hnil => hC ?_, rfl⟩
    rw [← p.coinIds_length (List.mem_range.mp hw'), hnil]
    rfl

theorem mint_coins (p : Parameters) :
    (items p.mint.wallets.toList).length = p.numWallets.toNat * p.coinsPerWallet.toNat := by
  by_cases hC : p.coinsPerWallet.toNat = 0
  · have hnil : p.mint.wallets.toList = [] := by
      apply List.eq_nil_iff_forall_not_mem.mpr
      intro item hitem
      obtain ⟨c, hc⟩ := List.exists_mem_of_ne_nil _ (p.mem_mint_toList.mp hitem).1
      have hlen := p.coinIds_length (p.coinIds_wallet hc)
      rw [hC] at hlen
      rw [List.length_eq_zero_iff.mp hlen] at hc
      cases hc
    rw [hnil, hC, Nat.mul_zero]
    rfl
  · have hperm := (mint_toList p hC).flatMap_right fun x => x.2.map fun v => (x.1, v)
    have hlen : ∀ w ∈ List.range p.numWallets.toNat, (p.coins w).length = p.coinsPerWallet.toNat := by
      intro w hw
      rw [p.coins_eq, List.length_map, p.coinIds_length (List.mem_range.mp hw)]
    rw [items, hperm.length_eq, List.length_flatMap, List.map_map]
    simp only [Function.comp_def, List.length_map]
    rw [List.map_congr_left hlen, List.map_const', List.length_range, List.sum_replicate_nat]

theorem regular_of_returns {p : Parameters} {order : Shuffled p} {s : State} (h : Returns p order s) :
    Regular (s.workload p) := by
  have hinv := Inv.reached h.1
  have hwallets : s.wallets = p.mint.wallets := hinv.wallets (by rw [h.2]; decide)
  refine ⟨?_, ?_, fun t ht => (hinv.recorded t ht).senderCount,
    fun t ht => (hinv.recorded t ht).receiverCount⟩
  · show (items s.wallets.toList).length = _
    rw [hwallets]
    exact mint_coins p
  · show ∀ item ∈ s.wallets.toList, item.2 ≠ []
    rw [hwallets]
    intro item hitem hnil
    obtain ⟨hne, hl⟩ := p.mem_mint_toList.mp hitem
    rw [hl, p.coins_eq, List.map_eq_nil_iff] at hnil
    exact hne hnil

/-- **A generated workload is read back as it was written**: the same workload,
from exactly the numbers that were written, and it is written as the same text. -/
theorem fromFile_toFile (p : Parameters) (order : Shuffled p) (s : State) (h : Returns p order s)
    (unassigned : Nat → Nat) :
    Spells (s.workload p).toFile (s.workload p).numbers ∧
      ∃ stream, fromFile (opened (s.workload p).toFile unassigned) = (s.workload p, stream) ∧
      stream.failed = false ∧ stream.count = (s.workload p).numbers.length ∧
      (∀ c ∈ stream.text, isSpace c = true) ∧
      (fromFile (opened (s.workload p).toFile unassigned)).1.toFile = (s.workload p).toFile := by
  have hreads := reads_fromFile (regular_of_returns h) rfl
  have hholds : (opened (s.workload p).toFile unassigned).Holds ((s.workload p).numbers ++ []) := by
    rw [List.append_nil]
    exact ⟨rfl, spells_toFile _⟩
  obtain ⟨hw, hrest, hcount⟩ := hreads _ [] hholds
  refine ⟨spells_toFile _, _, Prod.ext hw rfl, hrest.good, ?_, hrest.spells.isSpace, by rw [hw]⟩
  rw [hcount]
  exact Nat.zero_add _

theorem sixEnd_fromFile :
    Spells (sixEnd.workload sixWallets).toFile (sixEnd.workload sixWallets).numbers ∧
      ∃ stream, fromFile (opened (sixEnd.workload sixWallets).toFile id) =
        (sixEnd.workload sixWallets, stream) ∧
      stream.failed = false ∧ stream.count = (sixEnd.workload sixWallets).numbers.length ∧
      (∀ c ∈ stream.text, isSpace c = true) ∧
      (fromFile (opened (sixEnd.workload sixWallets).toFile id)).1.toFile =
        (sixEnd.workload sixWallets).toFile :=
  fromFile_toFile sixWallets sixOrder sixEnd sixEnd_returns id

end CascadePlayground.Cbdc
