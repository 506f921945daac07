import Std.Data.ExtTreeMap
import Mathlib.Data.List.Basic

/-! The data of the CBDC benchmark workload (`benchmark_workload.hpp`).

Parameters and coin values have the widths of the source, so that its arithmetic
on them wraps where the source's does. Ids are natural numbers: loop counters
below a 64-bit bound stay in range by themselves, and the one counter that need
not, `cid`, is reduced where it is incremented.

A `std::map` is an ordered map whose equality is extensional: two maps are equal
when they have the same keys and the same value at each key. -/
namespace CascadePlayground.Cbdc

abbrev WalletId := Nat
abbrev CoinId := Nat
abbrev CoinValue := UInt32
abbrev CoinList := List (CoinId × CoinValue)

/-- The benchmark parameters, with the defaults of the class. -/
structure Parameters where
  numWallets : UInt64 := 10
  coinsPerWallet : UInt64 := 1
  transfersPerWallet : UInt64 := 1
  sendersPerTransfer : UInt64 := 1
  receiversPerTransfer : UInt64 := 1
  coinInitialValue : CoinValue := 100000
  transferValue : CoinValue := 10
  randomSeed : UInt64 := 3
deriving DecidableEq, Repr

/-- `benchmark_transfer_t` -/
structure BenchmarkTransfer where
  senders : List (WalletId × CoinList)
  receivers : List (WalletId × CoinList)
deriving DecidableEq, Repr

abbrev Wallets := Std.ExtTreeMap WalletId CoinList

/-- Balances by wallet and coin, in the lexicographic order of `std::pair`. -/
abbrev Balances := Std.ExtTreeMap (WalletId × CoinId) CoinValue lexOrd.compare

structure CBDCBenchmarkWorkload extends Parameters where
  generated : Bool := false
  wallets : Wallets := ∅
  transfers : List BenchmarkTransfer := []
  expectedFinalValues : Balances := ∅

namespace Balances

/-- `map[item]` as a value: an absent entry reads as zero. -/
def val (e : Balances) (item : WalletId × CoinId) : CoinValue := e.getD item 0

/-- `map[item]` as it stands in an expression: an absent entry is created. -/
def touch (e : Balances) (item : WalletId × CoinId) : Balances := e.insertIfNew item 0

/-- `map[item] += v` -/
def addAssign (e : Balances) (item : WalletId × CoinId) (v : CoinValue) : Balances :=
  e.insert item (e.val item + v)

/-- `map[item] -= v` -/
def subAssign (e : Balances) (item : WalletId × CoinId) (v : CoinValue) : Balances :=
  e.insert item (e.val item - v)

theorem val_eq (e : Balances) (item : WalletId × CoinId) : e.val item = e[item]?.getD 0 :=
  Std.ExtTreeMap.getD_eq_getD_getElem?

theorem getElem?_addAssign (e : Balances) (item k : WalletId × CoinId) (v : CoinValue) :
    (e.addAssign item v)[k]? = if item = k then some (e.val item + v) else e[k]? := by
  simp [addAssign, Std.ExtTreeMap.getElem?_insert]

theorem getElem?_subAssign (e : Balances) (item k : WalletId × CoinId) (v : CoinValue) :
    (e.subAssign item v)[k]? = if item = k then some (e.val item - v) else e[k]? := by
  simp [subAssign, Std.ExtTreeMap.getElem?_insert]

theorem touch_of_mem {e : Balances} {item : WalletId × CoinId} (h : item ∈ e) :
    e.touch item = e := by
  apply Std.ExtTreeMap.ext_getElem?
  intro k
  rw [touch, Std.ExtTreeMap.getElem?_insertIfNew, if_neg]
  rintro ⟨-, hk⟩
  exact hk h

theorem ext {e e' : Balances} (h : ∀ k : WalletId × CoinId, e[k]? = e'[k]?) : e = e' :=
  Std.ExtTreeMap.ext_getElem? @h

/-- An entry that is written as it is. -/
theorem insert_val {e : Balances} {item : WalletId × CoinId} (h : item ∈ e) :
    e.insert item (e.val item) = e := by
  apply ext
  intro k
  rw [Std.ExtTreeMap.getElem?_insert]
  split
  · next hk =>
    have hk : item = k := Std.LawfulEqCmp.eq_of_compare hk
    rw [← hk, val_eq, Std.ExtTreeMap.getElem?_eq_some_getElem h]
    rfl
  · rfl

end Balances

end CascadePlayground.Cbdc
