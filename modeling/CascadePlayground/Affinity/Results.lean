import CascadePlayground.Dict
import CascadePlayground.Text.Lines

/-! The results file.

A client writes a header with its parameters and a line for each of its objects
(`measurements`), and the plotting script reads a file of such runs
(`extract_raw_data`). The two are separate programs that agree on the order of the
fields and on the number of lines: the script finds the next header by counting.

It finds them all, and gives for each logic and each configuration the samples of
the runs with that configuration, in the order of the file, but for the first
objects of each run and the lost notifications (`extractRawData_measurements`). -/
namespace CascadePlayground.Affinity
open Text

/-! ### The writer -/

structure Sample where
  latency : Int
  expTime : Int
  category : Int
  nodeId : Int
deriving DecidableEq, Repr

/-- A run of the client, with at least one object. The mode is one that stays on
its line. -/
structure Run where
  clientId : Nat
  objectSize : Int
  objectRate : Int
  entryPartSize : Int
  numEntryParts : Int
  dataPartSize : Int
  numDataParts : Int
  affinityLogic : Int
  numShards : Int
  numCategories : Int
  benchmarkTime : Int
  runMode : List Char
  samples : List Sample
  samples_ne_nil : samples ≠ []
  runMode_line : '\n' ∉ runMode ∧ '\r' ∉ runMode

namespace Run

def headerLine (r : Run) : List Char :=
  spaced [decimal r.clientId, integer r.objectSize, integer r.objectRate, integer r.entryPartSize,
    integer r.numEntryParts, integer r.dataPartSize, integer r.numDataParts, integer r.samples.length,
    integer r.affinityLogic, integer r.numShards, integer r.numCategories, integer r.benchmarkTime]
    r.runMode

def sampleLine (s : Sample) (i : Nat) : List Char :=
  spaced [decimal i, integer s.latency, integer s.expTime, integer s.category] (integer s.nodeId)

def lines (r : Run) : List (List Char) :=
  r.headerLine :: r.samples.zipIdx.map fun x => sampleLine x.1 x.2

end Run

/-- What a run puts at the end of the file. -/
def measurements (r : Run) : List Char := r.lines.flatMap fun line => line ++ ['\n']

/-! ### The reader -/

def skipObjects : Int := 500

inductive PyError where
  | valueError
  | indexError
deriving DecidableEq, Repr

/-- `fields[i]` -/
def field (fields : List (List Char)) (i : Nat) : Except PyError (List Char) :=
  match fields[i]? with
  | some text => .ok text
  | none => .error .indexError

/-- `int(fields[i])` -/
def intField (fields : List (List Char)) (i : Nat) : Except PyError Int := do
  match pyInt (← field fields i) with
  | some value => .ok value
  | none => .error .valueError

structure ExpConfig where
  objectSize : Int
  objectRate : Int
  entryPartSize : Int
  numEntryParts : Int
  dataPartSize : Int
  numDataParts : Int
  numShards : Int
  numCategories : Int
deriving DecidableEq, Repr

structure Header where
  numObjects : Int
  affinityLogic : Int
  expConfig : ExpConfig
deriving DecidableEq, Repr

/-- Three lists of the same length. -/
structure Group where
  latencies : List Int
  categories : List Int
  nodeIds : List Int
deriving DecidableEq, Repr

def Group.append (g : Group) (latency category nodeId : Int) : Group :=
  ⟨g.latencies ++ [latency], g.categories ++ [category], g.nodeIds ++ [nodeId]⟩

abbrev Data := Dict Int (Dict ExpConfig Group)

/-- The entries of the dictionaries are made when there is something to put there. -/
def record (data : Data) (affinityLogic : Int) (expConfig : ExpConfig) (latency category nodeId : Int) :
    Data :=
  data.update affinityLogic fun configs =>
    (configs.getD .empty).update expConfig fun group =>
      (group.getD ⟨[], [], []⟩).append latency category nodeId

def readHeader (header : List Char) : Except PyError Header := do
  let fields := header.splitOn ' '
  let _clientId ← intField fields 0
  let objectSize ← intField fields 1
  let objectRate ← intField fields 2
  let entryPartSize ← intField fields 3
  let numEntryParts ← intField fields 4
  let dataPartSize ← intField fields 5
  let numDataParts ← intField fields 6
  let numObjects ← intField fields 7
  let affinityLogic ← intField fields 8
  let numShards ← intField fields 9
  let numCategories ← intField fields 10
  let _duration ← intField fields 11
  let _mode ← field fields 12
  .ok ⟨numObjects, affinityLogic, objectSize, objectRate, entryPartSize, numEntryParts, dataPartSize,
    numDataParts, numShards, numCategories⟩

def readSample (header : Header) (data : Data) (sample : List Char) : Except PyError Data := do
  let values := sample.splitOn ' '
  let objId ← intField values 0
  if skipObjects ≤ objId then
    let latency ← intField values 1
    let _timestamp ← intField values 2
    let category ← intField values 3
    let nodeId ← intField values 4
    if 0 < latency then
      .ok (record data header.affinityLogic header.expConfig latency category nodeId)
    else .ok data
  else .ok data

/-- Both loops of the script take their lines from one iterator. The inner one is
at the samples of a header, and has read `i` of them. -/
inductive Position where
  | header
  | sample (header : Header) (i : Int)

def readLine (state : Data × Position) (line : List Char) : Except PyError (Data × Position) := do
  match state.2 with
  | .header => .ok (state.1, .sample (← readHeader line) 0)
  | .sample header i =>
    let data ← readSample header state.1 line
    if header.numObjects ≤ i + 1 then .ok (data, .header) else .ok (data, .sample header (i + 1))

/-- `extract_raw_data` -/
def extractRawData (file : List Char) : Except PyError Data := do
  let state ← (lines (universalNewlines file)).foldlM readLine (Dict.empty, .header)
  .ok state.1

/-! ### One run -/

namespace Run

def expConfig (r : Run) : ExpConfig :=
  ⟨r.objectSize, r.objectRate, r.entryPartSize, r.numEntryParts, r.dataPartSize, r.numDataParts,
    r.numShards, r.numCategories⟩

def header (r : Run) : Header := ⟨r.samples.length, r.affinityLogic, r.expConfig⟩

end Run

theorem intField_integer {fields : List (List Char)} (i : Nat) (z : Int)
    (h : fields[i]? = some (integer z)) : intField fields i = .ok z := by
  have hread := pyInt_integer z [] fun c hc => absurd hc List.not_mem_nil
  rw [List.append_nil] at hread
  simp only [intField, field, h, hread, bind, Except.bind]

/-- The last field of a line still has the end of the line. -/
theorem intField_last {fields : List (List Char)} (i : Nat) (z : Int)
    (h : fields[i]? = some (integer z ++ ['\n'])) : intField fields i = .ok z := by
  have hread := pyInt_integer z ['\n'] fun c hc => by
    rw [List.mem_singleton.mp hc]
    rfl
  simp only [intField, field, h, hread, bind, Except.bind]

theorem field_of {fields : List (List Char)} (i : Nat) (text : List Char) (h : fields[i]? = some text) :
    field fields i = .ok text := by
  rw [field, h]

theorem readHeader_headerLine (r : Run) : readHeader (r.headerLine ++ ['\n']) = .ok r.header := by
  have hint : ∀ z : Int, ' ' ∉ integer z := notMem_integer (by decide) rfl
  have hsplit : (r.headerLine ++ ['\n']).splitOn ' ' =
      [decimal r.clientId, integer r.objectSize, integer r.objectRate, integer r.entryPartSize,
        integer r.numEntryParts, integer r.dataPartSize, integer r.numDataParts,
        integer r.samples.length, integer r.affinityLogic, integer r.numShards, integer r.numCategories,
        integer r.benchmarkTime] ++ (r.runMode ++ ['\n']).splitOn ' ' := by
    rw [Run.headerLine, spaced_append, splitOn_spaced]
    simp [hint, notMem_decimal]
  -- whatever the mode is, there is a field for it
  obtain ⟨mode, rest, hmode⟩ := List.exists_cons_of_ne_nil (List.splitOn_ne_nil ' ' (r.runMode ++ ['\n']))
  rw [hmode] at hsplit
  rw [readHeader, hsplit, intField_integer 0 r.clientId rfl, intField_integer 1 r.objectSize rfl,
    intField_integer 2 r.objectRate rfl, intField_integer 3 r.entryPartSize rfl,
    intField_integer 4 r.numEntryParts rfl, intField_integer 5 r.dataPartSize rfl,
    intField_integer 6 r.numDataParts rfl, intField_integer 7 r.samples.length rfl,
    intField_integer 8 r.affinityLogic rfl, intField_integer 9 r.numShards rfl,
    intField_integer 10 r.numCategories rfl, intField_integer 11 r.benchmarkTime rfl,
    field_of 12 mode rfl]
  rfl

/-- The samples that the script is after. -/
def keeps (x : Sample × Nat) : Bool := decide (skipObjects ≤ (x.2 : Int)) && decide (0 < x.1.latency)

def addSample (header : Header) (data : Data) (x : Sample × Nat) : Data :=
  if keeps x then
    record data header.affinityLogic header.expConfig x.1.latency x.1.category x.1.nodeId
  else data

theorem readSample_sampleLine (header : Header) (data : Data) (s : Sample) (i : Nat) :
    readSample header data (Run.sampleLine s i ++ ['\n']) = .ok (addSample header data (s, i)) := by
  have hint : ∀ z : Int, ' ' ∉ integer z := notMem_integer (by decide) rfl
  have hlast : ' ' ∉ integer s.nodeId ++ ['\n'] := by simp [hint]
  have hsplit : (Run.sampleLine s i ++ ['\n']).splitOn ' ' =
      [decimal i, integer s.latency, integer s.expTime, integer s.category, integer s.nodeId ++ ['\n']] := by
    rw [Run.sampleLine, spaced_append, splitOn_spaced, List.splitOn_eq_singleton hlast]
    · rfl
    · simp [hint, notMem_decimal]
  rw [readSample, hsplit, intField_integer 0 i rfl, intField_integer 1 s.latency rfl,
    intField_integer 2 s.expTime rfl, intField_integer 3 s.category rfl, intField_last 4 s.nodeId rfl]
  unfold addSample keeps
  show (if skipObjects ≤ (i : Int) then if 0 < s.latency then Except.ok _ else _ else _) = _
  by_cases hskip : skipObjects ≤ (i : Int)
  · by_cases hlost : 0 < s.latency
    · simp [hskip, hlost]
    · simp [hskip, hlost]
  · simp [hskip]

/-- The inner loop: from sample `i` on, up to the last one of the run. -/
theorem foldlM_samples {header : Header} {samples : List Sample} {i : Nat} (hne : samples ≠ [])
    (hn : header.numObjects = i + samples.length) (data : Data) :
    ((samples.zipIdx i).map fun x => Run.sampleLine x.1 x.2 ++ ['\n']).foldlM readLine
        (data, .sample header i) =
      .ok ((samples.zipIdx i).foldl (addSample header) data, .header) := by
  induction samples generalizing i data with
  | nil => exact absurd rfl hne
  | cons s samples ih =>
    rw [List.length_cons] at hn
    rw [List.zipIdx_cons, List.map_cons, List.foldlM_cons, List.foldl_cons]
    have hread : readLine (data, .sample header i) (Run.sampleLine s i ++ ['\n']) =
        if header.numObjects ≤ i + 1 then .ok (addSample header data (s, i), .header)
        else .ok (addSample header data (s, i), .sample header ((i + 1 : Nat) : Int)) := by
      show (readSample header data _ >>= fun data => _) = _
      rw [readSample_sampleLine]
      rfl
    rw [hread]
    cases samples with
    | nil =>
      rw [if_pos (by simp only [List.length_nil] at hn; omega)]
      rfl
    | cons s' samples =>
      rw [if_neg (by simp only [List.length_cons] at hn; omega)]
      exact ih (List.cons_ne_nil _ _) (by omega) _

/-- The lines of a run, as the loops read them. -/
theorem foldlM_lines (r : Run) (data : Data) :
    (r.lines.map fun line => line ++ ['\n']).foldlM readLine (data, .header) =
      .ok (r.samples.zipIdx.foldl (addSample r.header) data, .header) := by
  have hread : readLine (data, .header) (r.headerLine ++ ['\n']) = .ok (data, .sample r.header 0) := by
    show (readHeader _ >>= fun header => _) = _
    rw [readHeader_headerLine]
    rfl
  rw [Run.lines, List.map_cons, List.map_map, List.foldlM_cons, hread]
  exact foldlM_samples r.samples_ne_nil (by simp [Run.header]) data

/-! ### What is in the dictionaries -/

/-- `data[affinity_logic][exp_config]` -/
def group (data : Data) (affinityLogic : Int) (expConfig : ExpConfig) : Option Group :=
  (data.get? affinityLogic).bind fun configs => configs.get? expConfig

/-- The lists for these samples; no group for none. -/
def groupOf (samples : List Sample) : Option Group :=
  if samples = [] then none
  else some ⟨samples.map Sample.latency, samples.map Sample.category, samples.map Sample.nodeId⟩

theorem groupOf_concat (samples : List Sample) (s : Sample) :
    groupOf (samples ++ [s]) =
      some (((groupOf samples).getD ⟨[], [], []⟩).append s.latency s.category s.nodeId) := by
  cases samples with
  | nil => rfl
  | cons s' samples => simp [groupOf, Group.append]

theorem group_record (data : Data) (l l' : Int) (e e' : ExpConfig) (latency category nodeId : Int) :
    group (record data l e latency category nodeId) l' e' =
      if l' = l ∧ e' = e then
        some (((group data l e).getD ⟨[], [], []⟩).append latency category nodeId)
      else group data l' e' := by
  unfold group record
  rw [Dict.get?_update]
  by_cases hl : l' = l
  · subst hl
    rw [if_pos rfl, Option.bind_some, Dict.get?_update]
    by_cases he : e' = e
    · rw [if_pos he, if_pos ⟨rfl, he⟩]
      cases data.get? l' <;> rfl
    · rw [if_neg he, if_neg fun h => he h.2]
      cases data.get? l' <;> rfl
  · rw [if_neg hl, if_neg fun h => hl h.1]

/-- The dictionaries hold these samples, for each logic and configuration. -/
structure Describes (data : Data) (kept : Int → ExpConfig → List Sample) : Prop where
  groups : ∀ l e, group data l e = groupOf (kept l e)
  entries : ∀ l configs, data.get? l = some configs → ∃ e, configs.get? e ≠ none

theorem describes_empty : Describes Dict.empty fun _ _ => [] :=
  ⟨fun _ _ => rfl, fun l configs h => by cases h⟩

theorem Describes.record {data : Data} {kept : Int → ExpConfig → List Sample} (h : Describes data kept)
    (l : Int) (e : ExpConfig) (s : Sample) :
    Describes (record data l e s.latency s.category s.nodeId)
      fun l' e' => if l' = l ∧ e' = e then kept l' e' ++ [s] else kept l' e' := by
  refine ⟨fun l' e' => ?_, fun l' configs hl' => ?_⟩
  · rw [group_record]
    by_cases hle : l' = l ∧ e' = e
    · obtain ⟨rfl, rfl⟩ := hle
      rw [if_pos ⟨rfl, rfl⟩, if_pos ⟨rfl, rfl⟩, groupOf_concat, h.groups]
    · rw [if_neg hle, if_neg hle, h.groups]
  · rw [Affinity.record, Dict.get?_update] at hl'
    split at hl'
    · refine ⟨e, ?_⟩
      rw [← Option.some.inj hl', Dict.get?_update, if_pos rfl]
      exact Option.some_ne_none _
    · exact h.entries l' configs hl'

/-- The samples of a run that go to the dictionaries. -/
def keptOf (xs : List (Sample × Nat)) : List Sample := (xs.filter keeps).map Prod.fst

theorem Describes.samples {data : Data} {kept : Int → ExpConfig → List Sample} (h : Describes data kept)
    (header : Header) (xs : List (Sample × Nat)) :
    Describes (xs.foldl (addSample header) data) fun l e =>
      if l = header.affinityLogic ∧ e = header.expConfig then kept l e ++ keptOf xs else kept l e := by
  induction xs generalizing data kept with
  | nil =>
    refine ⟨fun l e => ?_, h.entries⟩
    rw [List.foldl_nil, h.groups]
    split
    · rw [keptOf, List.filter_nil, List.map_nil, List.append_nil]
    · rfl
  | cons x xs ih =>
    rw [List.foldl_cons]
    by_cases hx : keeps x
    · have hrecord := ih (h.record header.affinityLogic header.expConfig x.1)
      have hadd : addSample header data x =
          Affinity.record data header.affinityLogic header.expConfig x.1.latency x.1.category x.1.nodeId :=
        if_pos hx
      rw [hadd]
      refine ⟨fun l e => ?_, hrecord.entries⟩
      rw [hrecord.groups]
      by_cases hle : l = header.affinityLogic ∧ e = header.expConfig
      · rw [if_pos hle, if_pos hle, if_pos hle, keptOf, keptOf, List.filter_cons_of_pos hx, List.map_cons,
          List.append_assoc, List.singleton_append]
      · rw [if_neg hle, if_neg hle, if_neg hle]
    · have hskip : addSample header data x = data := if_neg hx
      have hkept : keptOf (x :: xs) = keptOf xs := by
        rw [keptOf, keptOf, List.filter_cons_of_neg hx]
      rw [hskip, hkept]
      exact ih h

/-! ### All runs -/

/-- In the order of the file: the samples of the runs with this logic and
configuration whose number is at least `SKIP_OBJECTS` and whose latency is positive. -/
def keptSamples (runs : List Run) (l : Int) (e : ExpConfig) : List Sample :=
  (runs.filter fun r => decide (l = r.affinityLogic ∧ e = r.expConfig)).flatMap fun r =>
    keptOf r.samples.zipIdx

theorem keptSamples_cons (r : Run) (runs : List Run) (l : Int) (e : ExpConfig) :
    keptSamples (r :: runs) l e =
      (if l = r.affinityLogic ∧ e = r.expConfig then keptOf r.samples.zipIdx else []) ++
        keptSamples runs l e := by
  rw [keptSamples, List.filter_cons]
  by_cases h : l = r.affinityLogic ∧ e = r.expConfig
  · rw [if_pos h, if_pos (decide_eq_true h)]
    rfl
  · rw [if_neg h, if_neg fun ht => h (of_decide_eq_true ht)]
    rfl

theorem foldlM_runs (runs : List Run) {data : Data} {kept : Int → ExpConfig → List Sample}
    (h : Describes data kept) :
    ∃ data', ((runs.flatMap Run.lines).map fun line => line ++ ['\n']).foldlM readLine (data, .header) =
        .ok (data', .header) ∧
      Describes data' fun l e => kept l e ++ keptSamples runs l e := by
  induction runs generalizing data kept with
  | nil => exact ⟨data, rfl, by simpa [keptSamples] using h⟩
  | cons r runs ih =>
    obtain ⟨data', hrun, hdata'⟩ := ih (h.samples r.header r.samples.zipIdx)
    refine ⟨data', ?_, ?_⟩
    · rw [List.flatMap_cons, List.map_append, List.foldlM_append, foldlM_lines]
      exact hrun
    · have hkept : (fun l e => (if l = r.header.affinityLogic ∧ e = r.header.expConfig then
          kept l e ++ keptOf r.samples.zipIdx else kept l e) ++ keptSamples runs l e) =
          fun l e => kept l e ++ keptSamples (r :: runs) l e := by
        funext l e
        rw [keptSamples_cons, ← List.append_assoc]
        congr 1
        show (if l = r.affinityLogic ∧ e = r.expConfig then _ else _) = _
        split
        · rfl
        · rw [List.append_nil]
      rwa [hkept] at hdata'

/-- No character of a run is taken for an end of a line. -/
theorem notMem_lines {c : Char} (hc : c = '\n' ∨ c = '\r') (r : Run) : ∀ line ∈ r.lines, c ∉ line := by
  have hdigit : c.isDigit = false := by rcases hc with rfl | rfl <;> rfl
  have hsign : c ≠ '-' := by rcases hc with rfl | rfl <;> decide
  have hblank : c ≠ ' ' := by rcases hc with rfl | rfl <;> decide
  have hint : ∀ z, c ∉ integer z := notMem_integer hsign hdigit
  have hmode : c ∉ r.runMode := by
    rcases hc with rfl | rfl
    · exact r.runMode_line.1
    · exact r.runMode_line.2
  intro line hline
  rcases List.mem_cons.mp hline with rfl | hline
  · exact notMem_spaced hblank (by simp [hint, notMem_decimal hdigit]) hmode
  · obtain ⟨x, _, rfl⟩ := List.mem_map.mp hline
    exact notMem_spaced hblank (by simp [hint, notMem_decimal hdigit]) (hint _)

/-- What the script has of the runs in a file. -/
theorem describes_measurements (runs : List Run) :
    ∃ data, extractRawData (runs.flatMap measurements) = .ok data ∧ Describes data (keptSamples runs) := by
  have hfile : runs.flatMap measurements = (runs.flatMap Run.lines).flatMap fun line => line ++ ['\n'] :=
    (List.flatMap_assoc ..).symm
  have hchars : ∀ line ∈ runs.flatMap Run.lines, '\n' ∉ line ∧ '\r' ∉ line := by
    intro line hline
    obtain ⟨r, _, hr⟩ := List.mem_flatMap.mp hline
    exact ⟨notMem_lines (.inl rfl) r line hr, notMem_lines (.inr rfl) r line hr⟩
  obtain ⟨data, hread, hdata⟩ := foldlM_runs runs describes_empty
  refine ⟨data, ?_, hdata⟩
  rw [extractRawData, hfile, lines_written hchars, hread]
  rfl

/-- **The script reads what the clients wrote**: for each logic and configuration
the samples that it is after, and nothing for the others. -/
theorem extractRawData_measurements (runs : List Run) :
    ∃ data, extractRawData (runs.flatMap measurements) = .ok data ∧
      (∀ l e, group data l e = groupOf (keptSamples runs l e)) ∧
      ∀ l configs, data.get? l = some configs → ∃ e, configs.get? e ≠ none := by
  obtain ⟨data, hread, hdata⟩ := describes_measurements runs
  exact ⟨data, hread, hdata.groups, hdata.entries⟩

end CascadePlayground.Affinity
