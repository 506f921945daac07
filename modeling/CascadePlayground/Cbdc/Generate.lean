import CascadePlayground.Cbdc.Workload
import CascadePlayground.CursorList
import CascadePlayground.Transition

/-! `CBDCBenchmarkWorkload::generate()` as a machine.

The two loops that mint coins and list wallets are folds. The loops that build
the transfers need not end, so they are a machine: `Control` is the loop test the
control stands at, `next` runs from one loop test to the next one. The machine
rests when `generate` has returned, has thrown "Not enough funds", or has used
`next_wallet_it` outside the list (`undefined`).

`started` may name a node that has been erased when it is compared with
`next_wallet_it`. The outcome of such a comparison is the parameter `stale` of
`next`. With iterators told apart by their nodes it is `false`: no live node is
the erased one, and the list gets no new node after the shuffle. -/
namespace CascadePlayground.Cbdc
open StateTransition (Reaches)

namespace Parameters
variable (p : Parameters)

/-- `wallets_per_transfer` -/
def walletsPerTransfer : UInt64 := p.sendersPerTransfer + p.receiversPerTransfer

/-- `transfer_value_per_wallet`: a 64-bit product, stored in 32 bits. -/
def transferValuePerWallet : CoinValue :=
  (p.transferValue.toUInt64 * p.receiversPerTransfer).toUInt32

/-- `value_in`, what a receiver gets of a sender's `v`. Evaluated only where there
is a receiver to pick, so never with a divisor of zero. -/
def valueIn (v : CoinValue) : CoinValue := (v.toUInt64 / p.receiversPerTransfer).toUInt32

/-! ### Wallets, coins and the wallet list -/

/-- Every wallet id, `n` times in a row: the iterations of
`for(wid=0;wid<num_wallets;wid++) for(i=0;i<n;i++)`. -/
def repeated (n : UInt64) : List WalletId :=
  (List.range p.numWallets.toNat).flatMap fun wid => List.replicate n.toNat wid

/-- The variables of the minting loops. -/
structure Minting where
  cid : CoinId
  wallets : Wallets
  expectedFinalValues : Balances

/-- One iteration of the minting loops. -/
def mintCoin (m : Minting) (wid : WalletId) : Minting where
  cid := (m.cid + 1) % 2 ^ 64
  wallets := m.wallets.insert wid (m.wallets.getD wid [] ++ [(m.cid, p.coinInitialValue)])
  expectedFinalValues := m.expectedFinalValues.addAssign (wid, m.cid) p.coinInitialValue

def mint : Minting := (p.repeated p.coinsPerWallet).foldl p.mintCoin ⟨0, ∅, ∅⟩

/-- `wallet_list` before it is shuffled. -/
def walletEntries : List WalletId := p.repeated p.transfersPerWallet

end Parameters

/-- What `shuffle_list` can make of the wallet list: any order of its entries. -/
structure Shuffled (p : Parameters) where
  entries : List WalletId
  perm : entries.Perm p.walletEntries

/-- A node of `wallet_list`. -/
structure Node where
  id : Nat
  wallet : WalletId
deriving DecidableEq, Repr

/-- The nodes of the list. The shuffle copies values back into them: a node is
identified by its position in the list as it was filled. -/
def nodes (entries : List WalletId) : List Node := entries.zipIdx.map fun e => ⟨e.2, e.1⟩

/-! ### The machine -/

/-- The loop test the control stands at, or how `generate` has ended. -/
inductive Control where
  /-- `while(wallet_list.size() >= wallets_per_transfer)` -/
  | transfers
  /-- `while(transfer.senders.size() < senders_per_transfer)` -/
  | senders
  /-- `while(picked.count(sender_id) > 0)` -/
  | senderSearch (senderId : WalletId)
  /-- `while(transfer.receivers.size() < receivers_per_transfer)` -/
  | receivers
  /-- `while(picked.count(receiver_id) > 0)` -/
  | receiverSearch (receiverId : WalletId)
  | returned
  | notEnoughFunds
  | undefined
deriving DecidableEq, Repr

structure State where
  control : Control
  wallets : Wallets
  transfers : List BenchmarkTransfer
  expectedFinalValues : Balances
  /-- `wallet_list` and `next_wallet_it` -/
  walletList : CursorList Node
  transfer : BenchmarkTransfer
  /-- the keys of `picked` -/
  picked : List WalletId
  /-- the node `started` names; `none` for `end()` -/
  started : Option Nat

/-- `for(auto coin : wallets[sender_id])`: the first coin that covers the amount.
Each comparison reads `expected_final_values[item]`. -/
def findCoin (amount : CoinValue) (senderId : WalletId) :
    CoinList → Balances → Option CoinId × Balances
  | [], e => (none, e)
  | coin :: rest, e =>
    let e := e.touch (senderId, coin.1)
    if amount ≤ e.val (senderId, coin.1) then (some coin.1, e)
    else findCoin amount senderId rest e

/-- `recv_pairs`: each coin entry of each sender, its value divided. -/
def recvPairs (p : Parameters) (senders : List (WalletId × CoinList)) : CoinList :=
  senders.flatMap fun input => input.2.map fun sendPair => (sendPair.1, p.valueIn sendPair.2)

/-- The credits that go with `recv_pairs`, in the same order. -/
def creditPairs (receiverId : WalletId) (pairs : CoinList) (e : Balances) : Balances :=
  pairs.foldl (fun e pair => e.addAssign (receiverId, pair.1) pair.2) e

namespace State

/-- `next_wallet_it == started` -/
def atStarted (stale : Bool) (s : State) : Bool :=
  match s.started with
  | none => s.walletList.deref.isNone
  | some id =>
    if id ∈ s.walletList.toList.map Node.id then s.walletList.deref.map Node.id == some id
    else stale

/-- The wallet under the iterator is read into the variable of a search loop. -/
def search (s : State) (resume : WalletId → Control) : State :=
  match s.walletList.deref with
  | none => {s with control := .undefined}
  | some node => {s with control := resume node.wallet}

/-- The body of a search loop: a circular increment, then `finish` or another
test. `giveUp` is where `finish` leads. -/
def searchOn (stale : Bool) (s : State) (resume : WalletId → Control) (giveUp : Control) : State :=
  match s.walletList.increment with
  | none => {s with control := .undefined}
  | some list =>
    let s := {s with walletList := list.wrap}
    if s.atStarted stale then {s with control := giveUp} else s.search resume

/-- `next_wallet_it = wallet_list.erase(next_wallet_it)`, and back to the front at the end. -/
def eraseEntry (s : State) (control : Control) : State :=
  match s.walletList.erase with
  | none => {s with control := .undefined}
  | some list => {s with walletList := list.wrap, control := control}

/-- The sender loop from `picked[sender_id] = true` on. -/
def pickSender (p : Parameters) (senderId : WalletId) (s : State) : State :=
  let amount := p.transferValuePerWallet
  -- `wallets[sender_id]` creates the entry of a wallet without coins
  let wallets := s.wallets.insertIfNew senderId []
  let s := {s with picked := s.picked ++ [senderId], wallets := wallets}
  match findCoin amount senderId (wallets.getD senderId []) s.expectedFinalValues with
  | (none, e) => {s with expectedFinalValues := e, control := .notEnoughFunds}
  | (some coinId, e) =>
    eraseEntry
      {s with
        transfer.senders := s.transfer.senders ++ [(senderId, [(coinId, amount)])]
        expectedFinalValues := e.subAssign (senderId, coinId) amount }
      .senders

/-- The receiver loop from `picked[receiver_id] = true` on. -/
def pickReceiver (p : Parameters) (receiverId : WalletId) (s : State) : State :=
  let pairs := recvPairs p s.transfer.senders
  eraseEntry
    {s with
      picked := s.picked ++ [receiverId]
      transfer.receivers := s.transfer.receivers ++ [(receiverId, pairs)]
      expectedFinalValues := creditPairs receiverId pairs s.expectedFinalValues }
    .receivers

end State

/-- From one loop test to the next. -/
def next (p : Parameters) (stale : Bool) (s : State) : Option State :=
  match s.control with
  | .transfers =>
    if p.walletsPerTransfer.toNat ≤ s.walletList.size then
      some {s with
        control := .senders
        transfer := ⟨[], []⟩
        picked := []
        started := s.walletList.deref.map Node.id }
    else some {s with control := .returned}
  | .senders =>
    if s.transfer.senders.length < p.sendersPerTransfer.toNat then some (s.search .senderSearch)
    else some {s with control := .receivers}
  | .senderSearch senderId =>
    -- `finish` leaves the outer loop too
    if senderId ∈ s.picked then some (s.searchOn stale .senderSearch .returned)
    else some (s.pickSender p senderId)
  | .receivers =>
    if s.transfer.receivers.length < p.receiversPerTransfer.toNat then
      some (s.search .receiverSearch)
    else some {s with control := .transfers, transfers := s.transfers ++ [s.transfer]}
  | .receiverSearch receiverId =>
    -- `finish` skips the push, and the outer loop goes on
    if receiverId ∈ s.picked then some (s.searchOn stale .receiverSearch .transfers)
    else some (s.pickReceiver p receiverId)
  | .returned | .notEnoughFunds | .undefined => none

/-- The state at the first test of the outer loop. -/
def start (p : Parameters) (order : Shuffled p) : State where
  control := .transfers
  wallets := p.mint.wallets
  transfers := []
  expectedFinalValues := p.mint.expectedFinalValues
  walletList := .ofList (nodes order.entries)
  transfer := ⟨[], []⟩
  picked := []
  started := none

/-- A state of a run of `generate`, iterators told apart by their nodes. -/
def Reached (p : Parameters) (order : Shuffled p) (s : State) : Prop :=
  Reaches (next p false) (start p order) s

/-- `generate` returns normally, in the state `s`. -/
def Returns (p : Parameters) (order : Shuffled p) (s : State) : Prop :=
  Reached p order s ∧ s.control = .returned

/-- The object `generate` leaves behind when it returns. -/
def State.workload (p : Parameters) (s : State) : CBDCBenchmarkWorkload where
  toParameters := p
  generated := true
  wallets := s.wallets
  transfers := s.transfers
  expectedFinalValues := s.expectedFinalValues

/-! ### A run

Three wallets, each in two of the transfers, two senders to a transfer. -/

def sixWallets : Parameters :=
  { numWallets := 3, coinsPerWallet := 2, transfersPerWallet := 2, sendersPerTransfer := 2
    coinInitialValue := 15 }

def sixOrder : Shuffled sixWallets := ⟨[2, 0, 1, 1, 2, 0], by decide⟩

def sixEnd : State := Transition.run (next sixWallets false) 40 (start sixWallets sixOrder)

theorem sixEnd_returns : Returns sixWallets sixOrder sixEnd :=
  ⟨Transition.reaches_run _ 40 _, by decide⟩

def sixFirst : BenchmarkTransfer := ⟨[(2, [(4, 10)]), (0, [(0, 10)])], [(1, [(4, 10), (0, 10)])]⟩

def sixSecond : BenchmarkTransfer := ⟨[(1, [(2, 10)]), (2, [(5, 10)])], [(0, [(2, 10), (5, 10)])]⟩

-- wallet 2 is the third to be met, but has been picked already: its entry stays in the list
example : sixEnd.transfers = [sixFirst, sixSecond] := by decide

end CascadePlayground.Cbdc
