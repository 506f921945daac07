import CascadePlayground.Cbdc.File
import CascadePlayground.Text.Cut

/-! Workload files that are cut off.

`from_file` looks at nothing but the numbers: whether the file could be opened and
whether a number was there is never asked. So a file that ends early is taken for
a workload, with whatever was in the variables in the place of what is missing
(`truncated_taken`). -/
namespace CascadePlayground.Cbdc
open Text

/-- The stream that `from_file` has when the file could not be opened. -/
def unopened (unassigned : Nat → Nat) : InStream := ⟨[], true, 0, unassigned⟩

/-- What is left of a file: its first numbers, or nothing. -/
inductive Truncated (unassigned : Nat → Nat) : InStream → List Nat → Prop where
  | opened {text : List Char} {ns : List Nat} :
      Spells (text ++ ['\n']) ns → Truncated unassigned (opened text unassigned) ns
  | unopened : Truncated unassigned (unopened unassigned) []

/-! ### The reader goes through the numbers in order -/

section Readers
variable {u32 : Reader UInt32} {number : Reader Nat} (hvalue : Sequential u32) (hnumber : Sequential number)
include hvalue hnumber

theorem sequential_readCoin (ws : Wallets) : Sequential (readCoin u32 number ws) :=
  .bind hnumber fun _ => .bind hnumber fun _ => .bind hvalue fun _ => .pure _

theorem sequential_readCoinPair (l : CoinList) : Sequential (readCoinPair u32 number l) :=
  .bind hnumber fun _ => .bind hvalue fun _ => .pure _

theorem sequential_readPair (l : List (WalletId × CoinList)) : Sequential (readPair u32 number l) :=
  .bind hnumber fun _ => .bind hnumber fun _ =>
    .bind (.times (sequential_readCoinPair hvalue hnumber) _ _) fun _ => .pure _

theorem sequential_readTransfer (senders receivers : UInt64) (l : List BenchmarkTransfer) :
    Sequential (readTransfer u32 number senders receivers l) :=
  .bind (.times (sequential_readPair hvalue hnumber) _ _) fun _ =>
    .bind (.times (sequential_readPair hvalue hnumber) _ _) fun _ => .pure _

theorem sequential_readBalance (e : Balances) : Sequential (readBalance u32 number e) :=
  .bind hnumber fun _ => .bind hnumber fun _ => .bind hvalue fun _ => .pure _

end Readers

/-- It begins with the number of wallets. -/
theorem fromFile_eq : ∃ rest, fromFile = extract asUInt64 >>= rest ∧ ∀ n, Sequential (rest n) := by
  refine ⟨_, rfl, fun numWallets => ?_⟩
  refine .bind (.extract _) fun coinsPerWallet => .bind (.extract _) fun transfersPerWallet => ?_
  refine .bind (.extract _) fun sendersPerTransfer => .bind (.extract _) fun receiversPerTransfer => ?_
  refine .bind (.extract _) fun coinInitialValue => .bind (.extract _) fun transferValue => ?_
  refine .bind (.extract _) fun randomSeed => .bind (.extract _) fun transferCount => ?_
  refine .bind (.extract _) fun expectedCount => ?_
  refine .bind (.times (fun ws => .times (sequential_readCoin (.extract _) (.extract _)) _ ws) _ _)
    fun wallets => ?_
  refine .bind (.times (sequential_readTransfer (.extract _) (.extract _) _ _) _ _) fun transfers => ?_
  exact .bind (.times (sequential_readBalance (.extract _) (.extract _)) _ _) fun _ => .pure _

theorem sequential_fromFile : Sequential fromFile := by
  obtain ⟨rest, hrun, hrest⟩ := fromFile_eq
  rw [hrun]
  exact .bind (.extract _) hrest

theorem fromFile_asks (stream : InStream) : stream.count < (fromFile stream).2.count := by
  obtain ⟨rest, hrun, hrest⟩ := fromFile_eq
  have hcount := (hrest (extract asUInt64 stream).1).count (extract asUInt64 stream).2
  rw [extract_count] at hcount
  rw [hrun]
  exact hcount

/-- Nothing that is read can keep `generated` from being set. -/
theorem fromFile_generated (stream : InStream) : (fromFile stream).1.generated = true := rfl

/-! ### What is made of a file that is cut off -/

section Returned
variable {p : Parameters} {order : Shuffled p} {s : State} (h : Returns p order s)
include h

theorem short_fromFile {ns : List Nat} (hns : ns <+: (s.workload p).numbers)
    (hne : ns ≠ (s.workload p).numbers) {stream : InStream} (hends : stream.Ends ns) :
    Short fromFile stream ns := by
  obtain ⟨rest, hrest⟩ := hns
  have hreads := reads_fromFile (regular_of_returns h) rfl
  rw [← hrest] at hreads hne
  refine sequential_fromFile.short hreads ?_ hends
  rintro rfl
  exact hne (List.append_nil ns).symm

/-- **A file that is cut off is taken for a workload**: what is returned is marked as
generated, though the stream has failed and more numbers were asked for than there were. -/
theorem truncated_taken (ns : List Nat) (hns : ns <+: (s.workload p).numbers)
    (hne : ns ≠ (s.workload p).numbers) (unassigned : Nat → Nat) (stream : InStream)
    (hstream : Truncated unassigned stream ns) :
    (fromFile stream).1.generated = true ∧ (fromFile stream).2.failed = true ∧
      ns.length < (fromFile stream).2.count := by
  refine ⟨fromFile_generated stream, ?_⟩
  cases hstream with
  | @opened text ns hspells =>
    have hends : (opened text unassigned).Ends ns := ⟨rfl, hspells⟩
    have hshort := short_fromFile h hns hne hends
    have hzero : (opened text unassigned).count = 0 := rfl
    have hcount := hshort.count
    rw [hzero, Nat.zero_add] at hcount
    exact ⟨hshort.failed, hcount⟩
  | unopened =>
    exact ⟨sequential_fromFile.failed _ rfl, fromFile_asks (unopened unassigned)⟩

end Returned

/-- The numbers of a file, with a blank after each. -/
theorem spells_flatMap_spaced (ns : List Nat) : Spells (ns.flatMap spaced) ns := by
  have hnumbers : Spells (ns.flatMap spaced) (ns.flatMap fun n => [n]) := .flatMap fun n _ => spells_spaced n
  rw [List.flatMap_singleton'] at hnumbers
  exact hnumbers

/-- Without its last number. -/
def sixEndCut : List Nat := (sixEnd.workload sixWallets).numbers.dropLast

def sixEndCutStream : InStream := opened (sixEndCut.flatMap spaced) fun _ => 0

theorem sixEnd_truncated :
    (fromFile sixEndCutStream).1.generated = true ∧ (fromFile sixEndCutStream).2.failed = true ∧
      sixEndCut.length < (fromFile sixEndCutStream).2.count := by
  have hne : sixEndCut ≠ (sixEnd.workload sixWallets).numbers := by
    intro he
    have hlen := congrArg List.length he
    have hpos : 0 < (sixEnd.workload sixWallets).numbers.length := Nat.succ_pos _
    rw [sixEndCut, List.length_dropLast] at hlen
    omega
  have hspells : Spells (sixEndCut.flatMap spaced ++ ['\n']) sixEndCut := by
    have happend := (spells_flatMap_spaced sixEndCut).append (.blank (c := '\n') rfl .nil)
    rw [List.append_nil] at happend
    exact happend
  exact truncated_taken sixEnd_returns sixEndCut (List.dropLast_prefix _) hne (fun _ => 0) _ (.opened hspells)

/-- An empty file is a workload without wallets. -/
theorem emptyFile_taken :
    [] <+: (sixEnd.workload sixWallets).numbers ∧ [] ≠ (sixEnd.workload sixWallets).numbers ∧
      Truncated (fun _ => 0) (opened [] fun _ => 0) [] ∧
      (fromFile (opened [] fun _ => 0)).1.generated = true ∧
      (fromFile (opened [] fun _ => 0)).2.failed = true ∧
      (fromFile (opened [] fun _ => 0)).2.count = 10 := by
  refine ⟨List.nil_prefix, (List.cons_ne_nil _ _).symm, .opened (.blank rfl .nil), ?_, ?_, ?_⟩
  · exact fromFile_generated _
  · decide +kernel
  · decide +kernel

end CascadePlayground.Cbdc
