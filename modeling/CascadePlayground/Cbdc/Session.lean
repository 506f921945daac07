import CascadePlayground.Cbdc.Command
import CascadePlayground.Cbdc.AnyOrder
import CascadePlayground.Cbdc.File

/-! Workload objects and workload files in use.

A session is what programs do with the class and with `generate_workload`: they
construct objects, call `generate` and `to_file` on them, any number of times and
also after `generate` has thrown, run the command, and load files with `from_file`.
The files are shared.

The order that `shuffle_list` gives is a function of the parameters, which have the
seed in them. So `generate` makes the same workload of the same parameters wherever
it runs, and the ways through a file lead to the same object: every object that is
marked `generated` and every file is the workload of its parameters
(`session_correct`). -/
namespace CascadePlayground.Cbdc
open Ledger Text CommandLine
open StateTransition (mem_eval)

/-! ### The operations -/

/-- `generate` has returned, or has thrown "Not enough funds". -/
def State.Ended (s : State) : Prop := s.control = .returned ∨ s.control = .notEnoughFunds

/-- The object that `generate` leaves behind. -/
def State.object (p : Parameters) (s : State) : CBDCBenchmarkWorkload :=
  {s.workload p with generated := decide (s.control = .returned)}

/-- The files by their names. What they hold is the text that was compressed. -/
abbrev Files := Word → Option (List Char)

section
variable (shuffled : (p : Parameters) → Shuffled p)

/-- A call of `generate` that comes to an end makes `w'` of `w`. -/
inductive Generates (w : CBDCBenchmarkWorkload) : CBDCBenchmarkWorkload → Prop where
  | done : w.generated = true → Generates w w
  | ended {s : State} : w.generated = false →
      Reached w.toParameters (shuffled w.toParameters) s → s.Ended → Generates w (s.object w.toParameters)

/-- `to_file` from the opening of the file on; an exception of `generate` comes
before that. Where the file cannot be opened the writes go nowhere. -/
def Files.write (files : Files) (writable : Bool) (fname : Word) (w : CBDCBenchmarkWorkload) : Files :=
  if w.generated = true ∧ writable = true then Function.update files fname (some w.toFile)
  else files

/-- A run of `generate_workload` with these arguments. -/
inductive Command (args : List Word) (files : Files) : Files → Prop where
  | help : parse args = none → Command args files files
  | workload {a : Arguments} {w : CBDCBenchmarkWorkload} (writable : Bool) : parse args = some a →
      Generates shuffled {toParameters := a.toParameters} w →
        Command args files (files.write writable a.output w)

structure Session where
  objects : List CBDCBenchmarkWorkload
  files : Files

inductive Session.Step (s : Session) : Session → Prop where
  | construct (p : Parameters) : Step s {s with objects := s.objects ++ [{toParameters := p}]}
  | generate {i : Nat} {w w' : CBDCBenchmarkWorkload} : s.objects[i]? = some w →
      Generates shuffled w w' → Step s {s with objects := s.objects.set i w'}
  | toFile {i : Nat} {w w' : CBDCBenchmarkWorkload} (writable : Bool) (fname : Word) :
      s.objects[i]? = some w →
        Generates shuffled w w' →
          Step s {objects := s.objects.set i w', files := s.files.write writable fname w'}
  /-- The file is there; `unassigned` is what the variables of `from_file` hold before they are read. -/
  | fromFile {text : List Char} (fname : Word) (unassigned : Nat → Nat) : s.files fname = some text →
      Step s {s with objects := s.objects ++ [(fromFile (opened text unassigned)).1]}
  | command {args : List Word} {files : Files} : Command shuffled args s.files files →
      Step s {s with files := files}

def Session.Reached : Session → Prop :=
  Relation.ReflTransGen (Session.Step shuffled) ⟨[], fun _ => none⟩

/-- The workload that `generate` makes of its parameters. -/
def Genuine (w : CBDCBenchmarkWorkload) : Prop :=
  ∃ s, Returns w.toParameters (shuffled w.toParameters) s ∧ w = s.workload w.toParameters

end

/-! ### One workload for each tuple of parameters -/

variable {shuffled : (p : Parameters) → Shuffled p} {w w' w'' : CBDCBenchmarkWorkload}

theorem State.Ended.rest {p : Parameters} {s : State} (h : s.Ended) : next p false s = none := by
  rcases h with h | h <;> simp only [next, h]

/-- A run of `generate` ends in one way. -/
theorem ended_unique {p : Parameters} {order : Shuffled p} {s s' : State} (h : Reached p order s)
    (hs : s.Ended) (h' : Reached p order s') (hs' : s'.Ended) : s = s' :=
  Part.mem_unique (mem_eval.mpr ⟨h, hs.rest⟩) (mem_eval.mpr ⟨h', hs'.rest⟩)

theorem Genuine.unique (h : Genuine shuffled w) (h' : Genuine shuffled w')
    (hp : w.toParameters = w'.toParameters) : w = w' := by
  obtain ⟨s, ⟨hr, hc⟩, he⟩ := h
  obtain ⟨s', ⟨hr', hc'⟩, he'⟩ := h'
  rw [← hp] at hr' he'
  rw [he, he', ended_unique hr (.inl hc) hr' (.inl hc')]

theorem Genuine.generated (h : Genuine shuffled w) : w.generated = true := by
  obtain ⟨s, _, he⟩ := h
  rw [he]
  rfl

/-- A genuine workload is read back from its file. -/
theorem Genuine.fromFile (h : Genuine shuffled w) (unassigned : Nat → Nat) :
    (Cbdc.fromFile (opened w.toFile unassigned)).1 = w := by
  have hregular : Regular w := by
    obtain ⟨s, hr, he⟩ := h
    rw [he]
    exact regular_of_returns hr
  have hholds : (opened w.toFile unassigned).Holds (w.numbers ++ []) := by
    rw [List.append_nil]
    exact ⟨rfl, spells_toFile w⟩
  exact (reads_fromFile hregular h.generated _ [] hholds).1

/-- The transfers of a genuine workload can be executed in any order. -/
theorem Genuine.any_order (h : Genuine shuffled w)
    (hcoins : w.numWallets.toNat * w.coinsPerWallet.toNat < 2 ^ 64) {ts : List BenchmarkTransfer}
    (hts : ts.Perm w.transfers) :
    executeTransfers (mintWallets w.wallets) ts = some w.expectedFinalValues := by
  obtain ⟨s, ⟨hr, hc⟩, he⟩ := h
  have hinv := Inv.reached hr
  have hbook := Accounted.reached hcoins hr (by rw [hc]; decide)
  rw [State.begun, State.current, hc, List.append_nil] at hbook
  have hwallets : mintWallets w.wallets = w.toParameters.mint.expectedFinalValues := by
    apply mintWallets_of_coins
    rw [he]
    exact hinv.coins
  have htransfers : w.transfers = s.transfers := by rw [he]; rfl
  have hexpected : w.expectedFinalValues = s.expectedFinalValues := by rw [he]; rfl
  rw [htransfers] at hts
  have hperm : (postings s.transfers).Perm (postings ts) := hts.symm.map _
  have hany := executeAll_perm hperm (separate_postings hcoins hinv.recorded) hbook
  obtain ⟨e, hexec, hb⟩ := executeTransfers_book hcoins ts []
    (fun t ht => hinv.recorded t (hts.mem_iff.mp ht)) rfl hany
  rw [hwallets, hexec, hexpected, book_injective hb]

/-! ### What `generate` leaves -/

theorem Generates.parameters (h : Generates shuffled w w') : w'.toParameters = w.toParameters := by
  cases h <;> rfl

/-- An object that `generate` marks is genuine, unless it came marked. -/
theorem Generates.genuine (h : Generates shuffled w w') (hw : w.generated = true → Genuine shuffled w)
    (hg : w'.generated = true) : Genuine shuffled w' := by
  cases h with
  | done hdone => exact hw hdone
  | @ended s _ hr _ =>
    have hc : s.control = .returned := of_decide_eq_true hg
    refine ⟨s, ⟨hr, hc⟩, ?_⟩
    simp only [State.object, hc, decide_true]
    rfl

/-- Another call comes to an end, with nothing changed: after an exception, it throws again. -/
theorem Generates.repeats (h : Generates shuffled w w') : Generates shuffled w' w' := by
  cases h with
  | done hdone => exact .done hdone
  | @ended s _ hr hs =>
    by_cases hg : (s.object w.toParameters).generated = true
    · exact .done hg
    · exact .ended (w := s.object w.toParameters) (Bool.eq_false_iff.mpr hg) hr hs

/-- And there is nothing else that it can do. -/
theorem Generates.again (h : Generates shuffled w w') (h' : Generates shuffled w' w'') : w'' = w' := by
  cases h with
  | done hdone =>
    cases h' with
    | done => rfl
    | ended hnot => rw [hdone] at hnot; cases hnot
  | @ended s _ hr hs =>
    cases h' with
    | done => rfl
    | @ended s' _ hr' hs' => rw [ended_unique hr hs hr' hs']; rfl

/-! ### Sessions -/

/-- The files hold genuine workloads. -/
def Files.Genuine (shuffled : (p : Parameters) → Shuffled p) (files : Files) : Prop :=
  ∀ fname text, files fname = some text → ∃ w, Cbdc.Genuine shuffled w ∧ text = w.toFile

theorem Files.Genuine.write {files : Files} (h : files.Genuine shuffled) (writable : Bool) (fname : Word)
    (hw : w.generated = true → Cbdc.Genuine shuffled w) : (files.write writable fname w).Genuine shuffled := by
  intro f text hf
  unfold Files.write at hf
  split at hf
  · next hg =>
    rw [Function.update_apply] at hf
    split at hf
    · exact ⟨w, hw hg.1, (Option.some.inj hf).symm⟩
    · exact h f text hf
  · exact h f text hf

theorem Command.genuine {args : List Word} {files files' : Files} (h : files.Genuine shuffled)
    (hc : Command shuffled args files files') : files'.Genuine shuffled := by
  cases hc with
  | help => exact h
  | workload writable _ hw => exact h.write writable _ fun hg => hw.genuine (fun hnot => by cases hnot) hg

/-- What has been marked or written can be relied on. -/
structure Session.Good (shuffled : (p : Parameters) → Shuffled p) (s : Session) : Prop where
  objects : ∀ w ∈ s.objects, w.generated = true → Genuine shuffled w
  files : s.files.Genuine shuffled

theorem Session.Good.step {s s' : Session} (h : s.Good shuffled)
    (hs : Session.Step shuffled s s') : s'.Good shuffled := by
  cases hs with
  | construct p =>
    refine ⟨fun w hw hg => ?_, h.files⟩
    rcases List.mem_append.mp hw with hw | hw
    · exact h.objects w hw hg
    · rw [List.mem_singleton.mp hw] at hg
      cases hg
  | generate hi hgen =>
    refine ⟨fun w hw hg => ?_, h.files⟩
    rcases List.mem_or_eq_of_mem_set hw with hw | rfl
    · exact h.objects w hw hg
    · exact hgen.genuine (h.objects _ (List.mem_of_getElem? hi)) hg
  | toFile writable fname hi hgen =>
    have hgenuine := hgen.genuine (h.objects _ (List.mem_of_getElem? hi))
    refine ⟨fun w hw hg => ?_, h.files.write writable fname hgenuine⟩
    rcases List.mem_or_eq_of_mem_set hw with hw | rfl
    · exact h.objects w hw hg
    · exact hgenuine hg
  | fromFile fname unassigned hfile =>
    refine ⟨fun w hw hg => ?_, h.files⟩
    rcases List.mem_append.mp hw with hw | hw
    · exact h.objects w hw hg
    · obtain ⟨u, hu, rfl⟩ := h.files _ _ hfile
      rw [List.mem_singleton.mp hw, hu.fromFile unassigned]
      exact hu
  | command hc => exact ⟨h.objects, hc.genuine h.files⟩

theorem Session.Good.reached {s : Session} (h : Session.Reached shuffled s) : s.Good shuffled := by
  have hstart : Session.Good shuffled ⟨[], fun _ => none⟩ :=
    ⟨fun _ hw => absurd hw List.not_mem_nil, fun _ _ hf => by cases hf⟩
  exact Transition.Preserved.run (fun _ _ hs hn => hs.step hn) h hstart

/-- **What a session can rely on**: objects that are marked `generated` are the workloads
of their parameters, one for each, and their transfers can be executed in any order;
calling `generate` again changes nothing; and whatever file was written before reads
back as such a workload. -/
theorem session_correct (shuffled : (p : Parameters) → Shuffled p) (s : Session)
    (h : Session.Reached shuffled s) :
    (∀ w ∈ s.objects, w.generated = true → Genuine shuffled w ∧
      (w.numWallets.toNat * w.coinsPerWallet.toNat < 2 ^ 64 → ∀ ts : List BenchmarkTransfer,
        ts.Perm w.transfers →
          executeTransfers (mintWallets w.wallets) ts = some w.expectedFinalValues)) ∧
      (∀ w ∈ s.objects, ∀ w' ∈ s.objects, w.generated = true → w'.generated = true →
        w.toParameters = w'.toParameters → w = w') ∧
      (∀ w ∈ s.objects, ∀ w', Generates shuffled w w' →
        Generates shuffled w' w' ∧ ∀ w'', Generates shuffled w' w'' → w'' = w') ∧
      ∀ fname text, s.files fname = some text → ∃ w, Genuine shuffled w ∧
        ∀ unassigned, (fromFile (opened text unassigned)).1 = w := by
  have hgood := Session.Good.reached h
  refine ⟨fun w hw hg => ?_, fun w hw w' hw' hg hg' hp => ?_, fun w _ w' hgen => ?_,
    fun fname text hf => ?_⟩
  · have hgenuine := hgood.objects w hw hg
    exact ⟨hgenuine, fun hcoins ts hts => hgenuine.any_order hcoins hts⟩
  · exact (hgood.objects w hw hg).unique (hgood.objects w' hw' hg') hp
  · exact ⟨hgen.repeats, fun w'' hgen' => hgen.again hgen'⟩
  · obtain ⟨w, hw, rfl⟩ := hgood.files fname text hf
    exact ⟨w, hw, hw.fromFile⟩

/-! ### A session

An object is constructed and written to a file, and the file is loaded. -/

/-- The order that libstdc++ gives the entries of `sixWallets` with their seed. -/
def sixSeeded : Shuffled sixWallets := ⟨[1, 0, 0, 2, 1, 2], by decide⟩

def seeded (p : Parameters) : Shuffled p :=
  if h : p = sixWallets then h ▸ sixSeeded else ⟨p.walletEntries, .refl _⟩

def sixMade : State := Transition.run (next sixWallets false) 40 (start sixWallets sixSeeded)

def sixWorkload : CBDCBenchmarkWorkload := sixMade.workload sixWallets

def sixName : Word := "six.gz".toList

def sixFiles : Files := Function.update (fun _ => none) sixName (some sixWorkload.toFile)

def sixSession : Session :=
  ⟨[sixWorkload, (fromFile (opened sixWorkload.toFile id)).1], sixFiles⟩

theorem seeded_six : seeded sixWallets = sixSeeded := dif_pos rfl

theorem generates_six : Generates seeded {toParameters := sixWallets} sixWorkload := by
  have hended : sixMade.control = .returned := by decide
  have hreached : Reached sixWallets (seeded sixWallets) sixMade := by
    rw [seeded_six]
    exact Transition.reaches_run _ 40 _
  have hobject : sixMade.object sixWallets = sixWorkload := by
    simp only [State.object, hended, decide_true]
    rfl
  rw [← hobject]
  exact .ended rfl hreached (.inl hended)

theorem sixSession_reached : Session.Reached seeded sixSession := by
  have hconstruct : Session.Step seeded ⟨[], fun _ => none⟩
      ⟨[{toParameters := sixWallets}], fun _ => none⟩ := .construct sixWallets
  have hfile : Session.Step seeded ⟨[{toParameters := sixWallets}], fun _ => none⟩
      ⟨[sixWorkload], sixFiles⟩ :=
    .toFile (i := 0) true sixName rfl generates_six
  have hwritten : sixFiles sixName = some sixWorkload.toFile := Function.update_self ..
  have hload : Session.Step seeded ⟨[sixWorkload], sixFiles⟩ sixSession :=
    .fromFile sixName id hwritten
  exact ((Relation.ReflTransGen.refl.tail hconstruct).tail hfile).tail hload

theorem sixSession_correct :
    (∀ w ∈ sixSession.objects, w.generated = true → Genuine seeded w ∧
      (w.numWallets.toNat * w.coinsPerWallet.toNat < 2 ^ 64 → ∀ ts : List BenchmarkTransfer,
        ts.Perm w.transfers →
          executeTransfers (mintWallets w.wallets) ts = some w.expectedFinalValues)) ∧
      (∀ w ∈ sixSession.objects, ∀ w' ∈ sixSession.objects, w.generated = true →
        w'.generated = true → w.toParameters = w'.toParameters → w = w') ∧
      (∀ w ∈ sixSession.objects, ∀ w', Generates seeded w w' →
        Generates seeded w' w' ∧ ∀ w'', Generates seeded w' w'' → w'' = w') ∧
      ∀ fname text, sixSession.files fname = some text → ∃ w, Genuine seeded w ∧
        ∀ unassigned, (fromFile (opened text unassigned)).1 = w :=
  session_correct seeded sixSession sixSession_reached

/-! ### A directory that the command fills -/

/-- The command line gives no name for the file. -/
def NoOutput (args : List Word) : Prop := ∀ a, parse args = some a → a.fname = []

section
variable (shuffled : (p : Parameters) → Shuffled p)

/-- `generate_workload` without `-o`. -/
def DefaultRun (files files' : Files) : Prop :=
  ∃ args, NoOutput args ∧ Command shuffled args files files'

/-- Files that have been written by runs without `-o` alone. -/
def Filled : Files → Prop :=
  Relation.ReflTransGen (DefaultRun shuffled) fun _ => none

end

/-- Every file is the genuine workload of the parameters in its name. -/
def Files.Named (shuffled : (p : Parameters) → Shuffled p) (files : Files) : Prop :=
  ∀ fname text, files fname = some text → ∃ w, Cbdc.Genuine shuffled w ∧
    fname = defaultName w.toParameters ∧ text = w.toFile

/-- A run without `-o` writes under the default name of a genuine workload, or not at all. -/
theorem DefaultRun.write {files files' : Files} (h : DefaultRun shuffled files files') :
    files' = files ∨ ∃ w, Genuine shuffled w ∧
      files' = Function.update files (defaultName w.toParameters) (some w.toFile) := by
  obtain ⟨args, hname, hc⟩ := h
  cases hc with
  | help => exact .inl rfl
  | @workload a w writable ha hw =>
    by_cases hg : w.generated = true ∧ writable = true
    · refine .inr ⟨w, hw.genuine (fun hnot => by cases hnot) hg.1, ?_⟩
      have houtput : a.output = defaultName w.toParameters := by
        rw [Arguments.output, if_pos (hname a ha), hw.parameters]
      rw [Files.write, if_pos hg, houtput]
    · exact .inl (if_neg hg)

theorem DefaultRun.named {files files' : Files} (hf : files.Named shuffled)
    (h : DefaultRun shuffled files files') : files'.Named shuffled := by
  rcases h.write with rfl | ⟨w, hw, rfl⟩
  · exact hf
  · intro fname text ht
    rw [Function.update_apply] at ht
    split at ht
    · next hname => exact ⟨w, hw, hname, (Option.some.inj ht).symm⟩
    · exact hf fname text ht

theorem Filled.named {files : Files} (h : Filled shuffled files) : files.Named shuffled := by
  have hstep : Transition.Preserved (DefaultRun shuffled) (Files.Named shuffled) :=
    fun _ _ hf hn => DefaultRun.named hf hn
  have hstart : Files.Named shuffled fun _ => none := fun _ _ hf => by cases hf
  exact hstep.run h hstart

/-- What a file holds is never replaced by anything else. -/
theorem DefaultRun.keeps {files files' : Files} (hf : files.Named shuffled)
    (h : DefaultRun shuffled files files') {fname : Word} {text : List Char}
    (ht : files fname = some text) : files' fname = some text := by
  rcases h.write with rfl | ⟨w, hw, rfl⟩
  · exact ht
  · rw [Function.update_apply]
    split
    · next hname =>
      obtain ⟨u, hu, hname', rfl⟩ := hf fname text ht
      rw [hu.unique hw (defaultName_injective (hname'.symm.trans hname))]
    · exact ht

/-- **A directory that only the command fills, without `-o`**: every file has the
workload of the parameters that its name spells, and no later run changes it. -/
theorem filled_correct (shuffled : (p : Parameters) → Shuffled p) (files files' : Files)
    (h : Filled shuffled files)
    (h' : Relation.ReflTransGen (DefaultRun shuffled) files files') :
    (∀ fname text, files fname = some text → ∃ p, fname = defaultName p) ∧
      (∀ p text, files (defaultName p) = some text → ∀ unassigned,
        Genuine shuffled (fromFile (opened text unassigned)).1 ∧
          (fromFile (opened text unassigned)).1.toParameters = p) ∧
      ∀ fname text, files fname = some text → files' fname = some text := by
  have hnamed := h.named
  refine ⟨fun fname text ht => ?_, fun p text ht unassigned => ?_, fun fname text ht => ?_⟩
  · obtain ⟨w, _, hname, _⟩ := hnamed fname text ht
    exact ⟨w.toParameters, hname⟩
  · obtain ⟨w, hw, hname, rfl⟩ := hnamed _ text ht
    rw [hw.fromFile]
    exact ⟨hw, (defaultName_injective hname).symm⟩
  · have hstep : Transition.Preserved (DefaultRun shuffled) fun fs : Files =>
        fs.Named shuffled ∧ fs fname = some text :=
      fun _ _ hf hn => ⟨DefaultRun.named hf.1 hn, hn.keeps hf.1 hf.2⟩
    exact (hstep.run h' ⟨hnamed, ht⟩).2

/-- What the command leaves with the parameters of `sixWallets`. -/
def sixDirectory : Files :=
  Function.update (fun _ => none) (defaultName sixWallets) (some sixWorkload.toFile)

theorem sixRun (files : Files) : DefaultRun seeded files
    (Function.update files (defaultName sixWallets) (some sixWorkload.toFile)) := by
  have hparse := parse_commandLine sixWallets
  refine ⟨commandLine sixWallets, fun a ha => ?_, .workload true hparse generates_six⟩
  rw [hparse] at ha
  rw [← Option.some.inj ha]

theorem sixDirectory_correct :
    (∀ fname text, sixDirectory fname = some text → ∃ p, fname = defaultName p) ∧
      (∀ p text, sixDirectory (defaultName p) = some text → ∀ unassigned,
        Genuine seeded (fromFile (opened text unassigned)).1 ∧
          (fromFile (opened text unassigned)).1.toParameters = p) ∧
      ∀ fname text, sixDirectory fname = some text →
        Function.update sixDirectory (defaultName sixWallets) (some sixWorkload.toFile) fname = some text :=
  filled_correct seeded sixDirectory _ (.single (sixRun _)) (.single (sixRun _))

end CascadePlayground.Cbdc
