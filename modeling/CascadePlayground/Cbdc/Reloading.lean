import CascadePlayground.Cbdc.File

/-! Any file, saved and loaded again.

`from_file` asks nothing of its file: the text may be cut off, or no workload at all,
and what it makes of it is marked as generated. Such a workload may be nonsense, but
it is one that the file format can hold. The reader fills the containers with as many
items as the parameters that it has read say, and every number in them is one that a
variable held. So when `to_file` writes it, `from_file` reads the same workload back,
and this time the stream does not fail (`reloaded`): nothing is left that shows
where it came from.

What `>>` gives on a text that no `to_file` wrote is not modelled here: there the
two extractions are any functions of the stream. -/
namespace CascadePlayground.Cbdc
open Text OrderedMap

/-- An id or a count is read into 64 bits. -/
def wide (u64 : Reader UInt64) : Reader Nat := do
  let n ← u64
  pure n.toNat

/-- `from_file` on a stream whose extractions are these. -/
def fromFileBy (u64 : Reader UInt64) (u32 : Reader UInt32) : Reader CBDCBenchmarkWorkload :=
  fromFileWith u64 u32 (wide u64)

/-! ### What it can give -/

/-- Numbers that a 64-bit variable can hold. -/
def Fits (ns : List Nat) : Prop := ∀ n ∈ ns, n < 2 ^ 64

theorem Fits.append {ms ns : List Nat} (h : Fits ms) (h' : Fits ns) : Fits (ms ++ ns) :=
  List.forall_mem_append.mpr ⟨h, h'⟩

theorem Fits.flatMap {α : Type} {l : List α} {f : α → List Nat} (h : ∀ x ∈ l, Fits (f x)) :
    Fits (l.flatMap f) :=
  List.forall_mem_flatMap.mpr h

theorem fits_cons {n : Nat} {ns : List Nat} : Fits (n :: ns) ↔ n < 2 ^ 64 ∧ Fits ns := List.forall_mem_cons

theorem fits_value (v : UInt32) : Fits [v.toNat] :=
  List.forall_mem_singleton.mpr (Nat.lt_trans v.toNat_lt (by decide))

/-- The parameters fit by their types. -/
theorem fits_header {w : CBDCBenchmarkWorkload} (ht : w.transfers.length < 2 ^ 64)
    (he : w.expectedFinalValues.size < 2 ^ 64) : Fits w.header := by
  have hvalue : ∀ v : UInt32, v.toNat < 2 ^ 64 := fun v => fits_value v _ (List.mem_singleton_self _)
  simp only [CBDCBenchmarkWorkload.header, fits_cons]
  exact ⟨UInt64.toNat_lt _, UInt64.toNat_lt _, UInt64.toNat_lt _, UInt64.toNat_lt _, UInt64.toNat_lt _,
    hvalue _, hvalue _, UInt64.toNat_lt _, ht, he, List.forall_mem_nil _⟩

theorem gives_wide (u64 : Reader UInt64) : Gives (wide u64) fun n => n < 2 ^ 64 :=
  .any fun n => .pure n.toNat_lt

section Given
variable {u64 : Reader UInt64} {u32 : Reader UInt32} {number : Reader Nat}
  (hnumber : Gives number fun n => n < 2 ^ 64)
include hnumber

theorem gives_readCoin (ws : Wallets) :
    Gives (readCoin u32 number ws) fun ws' => ∃ x, Fits (coinNumbers x) ∧ ws' = push ws x :=
  hnumber.bind fun wid hw => hnumber.bind fun cid hc => .any fun cv =>
    .pure ⟨(wid, (cid, cv)), fits_cons.mpr ⟨hw, fits_cons.mpr ⟨hc, fits_value cv⟩⟩, rfl⟩

theorem gives_readCoinPair (l : CoinList) :
    Gives (readCoinPair u32 number l) fun l' => ∃ coin, Fits (coinPairNumbers coin) ∧ l' = l ++ [coin] :=
  hnumber.bind fun cid hc => .any fun cv => .pure ⟨(cid, cv), fits_cons.mpr ⟨hc, fits_value cv⟩, rfl⟩

theorem gives_readPair (l : List (WalletId × CoinList)) :
    Gives (readPair u32 number l) fun l' => ∃ x, Fits (pairNumbers x) ∧ l' = l ++ [x] := by
  refine hnumber.bind fun id hid => hnumber.bind fun coinCount hcount => ?_
  refine (Gives.times_list (gives_readCoinPair hnumber) coinCount).bind fun coinList hcoins => ?_
  obtain ⟨hlen, hfits⟩ := hcoins
  rw [← hlen] at hcount
  exact .pure ⟨(id, coinList), fits_cons.mpr ⟨hid, fits_cons.mpr ⟨hcount, .flatMap hfits⟩⟩, rfl⟩

theorem gives_readTransfer (senders receivers : UInt64) (l : List BenchmarkTransfer) :
    Gives (readTransfer u32 number senders receivers l) fun l' => ∃ t : BenchmarkTransfer,
      (t.senders.length = senders.toNat ∧ t.receivers.length = receivers.toNat ∧
        Fits (transferNumbers t)) ∧ l' = l ++ [t] := by
  refine (Gives.times_list (gives_readPair hnumber) senders.toNat).bind fun s hs => ?_
  refine (Gives.times_list (gives_readPair hnumber) receivers.toNat).bind fun r hr => ?_
  exact .pure ⟨⟨s, r⟩, ⟨hs.1, hr.1, (Fits.flatMap hs.2).append (.flatMap hr.2)⟩, rfl⟩

theorem gives_readBalance (e : Balances) :
    Gives (readBalance u32 number e) fun e' => ∃ item, Fits (balanceNumbers item) ∧
      e' = e.insert item.1 item.2 :=
  hnumber.bind fun wid hw => hnumber.bind fun cid hc => .any fun cv =>
    .pure ⟨((wid, cid), cv), fits_cons.mpr ⟨hw, fits_cons.mpr ⟨hc, fits_value cv⟩⟩, rfl⟩

/-- The coins of the wallets are those that were read, wherever they went. -/
theorem gives_wallets (c n : Nat) :
    Gives (times (times (readCoin u32 number) c) n ∅) fun ws : Wallets =>
      (items ws.toList).length = n * c ∧ Fits ((items ws.toList).flatMap coinNumbers) ∧
        ∀ item ∈ ws.toList, item.2 ≠ [] := by
  rw [times_times]
  intro s
  obtain ⟨coins, hlen, hfits, he⟩ := Gives.times (@gives_readCoin u32 number hnumber) (n * c) ∅ s
  have hperm : (items (pushAll (∅ : Wallets) coins).toList).Perm (coins ++ []) := items_pushAll ∅ coins
  rw [List.append_nil] at hperm
  rw [he]
  exact ⟨hperm.length_eq.trans hlen, .flatMap fun x hx => hfits x (hperm.mem_iff.mp hx),
    pushAll_ne_nil coins fun _ hy => absurd hy List.not_mem_nil⟩

theorem gives_balances (n : Nat) :
    Gives (times (readBalance u32 number) n ∅) fun e : Balances =>
      e.size ≤ n ∧ Fits (e.toList.flatMap balanceNumbers) := by
  intro s
  obtain ⟨written, hlen, hfits, he⟩ := Gives.times (@gives_readBalance u32 number hnumber) n ∅ s
  rw [he, ← hlen]
  have hsize := size_insertAll_le (∅ : Balances) written
  rw [Std.ExtTreeMap.size_empty, Nat.zero_add] at hsize
  refine ⟨hsize, .flatMap fun item hitem => ?_⟩
  rcases mem_insertAll hitem with hmem | hmem
  · exact hfits item hmem
  · exact absurd hmem List.not_mem_nil

end Given

/-- Whatever is read, the workload has the shape of the file, and its numbers fit. -/
theorem gives_fromFile (u64 : Reader UInt64) (u32 : Reader UInt32) :
    Gives (fromFileBy u64 u32) fun w => w.generated = true ∧ Regular w ∧ Fits w.numbers := by
  have hnumber := gives_wide u64
  refine .any fun numWallets => .any fun coinsPerWallet => .any fun transfersPerWallet => ?_
  refine .any fun sendersPerTransfer => .any fun receiversPerTransfer => .any fun coinInitialValue => ?_
  refine .any fun transferValue => .any fun randomSeed => ?_
  refine hnumber.bind fun transferCount htransfers => hnumber.bind fun expectedCount hexpected => ?_
  refine (gives_wallets hnumber coinsPerWallet.toNat numWallets.toNat).bind fun wallets hwallets => ?_
  refine (Gives.times_list (gives_readTransfer hnumber _ _) transferCount).bind fun transfers hts => ?_
  refine (gives_balances hnumber expectedCount).bind fun expectedFinalValues hbalances => .pure ?_
  obtain ⟨hcoins, hcoinsFit, hne⟩ := hwallets
  obtain ⟨hlen, hts⟩ := hts
  obtain ⟨hsize, hbalancesFit⟩ := hbalances
  refine ⟨rfl, ⟨hcoins, hne, fun t ht => (hts t ht).1, fun t ht => (hts t ht).2.1⟩, ?_⟩
  refine .append ?_ (.append hcoinsFit (.append (.flatMap fun t ht => (hts t ht).2.2) hbalancesFit))
  rw [← hlen] at htransfers
  exact fits_header htransfers (Nat.lt_of_le_of_lt hsize hexpected)

/-! ### What it makes of a file of `to_file` -/

theorem reads_wide (n : Nat) (h : n < 2 ^ 64) : Reads (wide (extract asUInt64)) [n] n := by
  have hn : asUInt64 n = (.ofNat n, true) := by rw [asUInt64, if_pos h]
  have hreads : Reads (wide (extract asUInt64)) [n] (UInt64.ofNat n).toNat := (Reads.extract hn).bind_pure
  rw [UInt64.toNat_ofNat_of_lt' h] at hreads
  exact hreads

/-- **What `from_file` makes of any stream survives `to_file`**: the text is that of a
workload, and what is read back from it is this workload, from exactly its numbers. -/
theorem reloaded (u64 : Reader UInt64) (u32 : Reader UInt32) (stream : InStream) (unassigned : Nat → Nat) :
    ∃ w, (fromFileBy u64 u32 stream).1 = w ∧ w.generated = true ∧ Regular w ∧ Fits w.numbers ∧
      Spells w.toFile w.numbers ∧
      ∃ rest, fromFileBy (extract asUInt64) (extract asUInt32) (opened w.toFile unassigned) = (w, rest) ∧
        rest.failed = false ∧ rest.count = w.numbers.length ∧ ∀ c ∈ rest.text, isSpace c = true := by
  obtain ⟨hg, hregular, hfits⟩ := gives_fromFile u64 u32 stream
  generalize (fromFileBy u64 u32 stream).1 = w at hg hregular hfits
  have hreads : Reads (fromFileBy (extract asUInt64) (extract asUInt32)) w.numbers w :=
    reads_fromFileWith reads_wide hregular hg hfits
  have hholds : (opened w.toFile unassigned).Holds (w.numbers ++ []) := by
    rw [List.append_nil]
    exact ⟨rfl, spells_toFile w⟩
  obtain ⟨hw, hrest, hcount⟩ := hreads _ [] hholds
  have htaken := hcount.trans (Nat.zero_add _)
  exact ⟨w, rfl, hg, hregular, hfits, spells_toFile w, _, Prod.ext hw rfl, hrest.good, htaken,
    hrest.spells.isSpace⟩

end CascadePlayground.Cbdc
